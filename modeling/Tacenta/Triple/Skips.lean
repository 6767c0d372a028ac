/-
# Tacenta.Triple.Skips -- skipping, in both ratchets

The two halves skip by one design over two numberings: the classical counter
names the next message, the sparse one the last.  `skipping_exact` says of both
what a skip refuses and what it leaves.
-/
import Tacenta.Ratchet.Skips
import Tacenta.Sample
import Tacenta.Spqr.Skips

set_option autoImplicit false

namespace Tacenta.Triple

variable {K : Type}

/-- **Skipping stores exactly the skipped keys**, in the classical ratchet under
the peer's key from the counter on, and in the sparse one under the epoch past
the counter.  It refuses exactly by its two bounds, and moves nothing then. -/
theorem skipping_exact (kdf : Kdf K) :
    (∀ (s : Ratchet.State K) (ck : K) (upto : UInt32), s.invariant = true → s.ckr = some ck →
      ∃ dhr, s.dhrPub = some dhr ∧ Ratchet.SkipsExactly kdf s ck dhr upto) ∧
    ∀ (s : Spqr.State K) (e upto : UInt64) (cs : Spqr.Chains K) (ch : Spqr.Chain K),
      s.invariant = true → s.findChains e = some cs → cs.receive = some ch →
        Spqr.State.SkipsExactly kdf s e cs ch upto := by
  constructor
  · intro s ck upto inv chain
    have valid := Ratchet.invariant_iff.1 inv
    obtain ⟨dhr, peer⟩ := Option.isSome_iff_exists.1 (valid.chains (by simp [chain])).2
    exact ⟨dhr, peer, Ratchet.skipsExactly_of_valid valid chain peer upto⟩
  · intro s e upto cs ch inv found chain
    exact Spqr.State.skipsExactly_of_valid (Spqr.State.invariant_iff.1 inv) found chain upto

/-- A responder handed its peer's fourth message first skips four more keys, and a
new sparse ratchet three. -/
theorem skipping_exact_early :
    (∃ ck dhr, Ratchet.early.ckr = some ck ∧ Ratchet.early.dhrPub = some dhr ∧
      Ratchet.SkipsExactly Sample.kdf Ratchet.early ck dhr 8) ∧
    ∃ cs ch, (Spqr.State.init Sample.kdf [] .a2b).findChains 0 = some cs ∧ cs.receive = some ch ∧
      Spqr.State.SkipsExactly Sample.kdf (.init Sample.kdf [] .a2b) 0 cs ch 3 := by
  obtain ⟨classical, sparse⟩ := skipping_exact Sample.kdf
  constructor
  · have chain : Ratchet.early.ckr.isSome = true := by decide +kernel
    obtain ⟨ck, chain⟩ := Option.isSome_iff_exists.1 chain
    obtain ⟨dhr, peer, skips⟩ := classical Ratchet.early ck 8 (by decide +kernel) chain
    exact ⟨ck, dhr, chain, peer, skips⟩
  · exact ⟨_, _, rfl, rfl, sparse _ 0 3 _ _ (Spqr.State.invariant_iff.2
      (Spqr.State.init_valid Sample.kdf [] .a2b)) rfl rfl⟩

end Tacenta.Triple
