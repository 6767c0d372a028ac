/-
# Tacenta.Runs -- runs of machines that answer with events

A machine takes a call to a new state and the events it answers with; a run
strings calls together and keeps the events in order.  `Keeps` is the induction
rule: what every call of some kind keeps, of the events so far and the state,
every run of such calls keeps.  `AllCalls` is the condition where it also depends
on the events and the state a call meets, and `AllCalls.keeps` its rule.

`Steps` strings the steps of a relation together in the same way, for a machine
whose calls are made of smaller steps; `Steps.keeps` is its rule.

`parallel` runs one machine per party, each call being one party's.  Parties
that share no state do not notice each other: `parallel_run` says that a party
ends an interleaving where its own calls alone would have taken it.

`withStorage` lets a machine's state be exported and imported again.  An
invariant of the events that count holds of an export for as long as none of
them happens, so it survives every import that takes none back
(`withStorage_run`).

A value that is replaced with its predecessor kept as a spare is still at hand
after a run that replaced it once (`replaced_once`).
-/
import Mathlib.Data.List.Basic

set_option autoImplicit false

namespace Tacenta

/-- The state a call leaves, and the events it answers with. -/
abbrev Machine (σ ι ε : Type) := σ → ι → σ × List ε

namespace Machine

variable {σ ι ε : Type}

/-- The state a run of calls leaves, and the events along it. -/
def run (m : Machine σ ι ε) : σ → List ι → σ × List ε
  | s, [] => (s, [])
  | s, call :: rest =>
      let now := m s call
      let later := run m now.1 rest
      (later.1, now.2 ++ later.2)

@[simp] theorem run_nil (m : Machine σ ι ε) (s : σ) : m.run s [] = (s, []) := rfl

theorem run_cons (m : Machine σ ι ε) (s : σ) (call : ι) (rest : List ι) :
    m.run s (call :: rest) =
      ((m.run (m s call).1 rest).1, (m s call).2 ++ (m.run (m s call).1 rest).2) := rfl

/-- A run that goes on ends where the rest takes it. -/
theorem run_append_fst (m : Machine σ ι ε) (s : σ) (calls rest : List ι) :
    (m.run s (calls ++ rest)).1 = (m.run (m.run s calls).1 rest).1 := by
  induction calls generalizing s with
  | nil => rfl
  | cons call later ih => exact ih (m s call).1

theorem run_append_snd (m : Machine σ ι ε) (s : σ) (calls rest : List ι) :
    (m.run s (calls ++ rest)).2 = (m.run s calls).2 ++ (m.run (m.run s calls).1 rest).2 := by
  induction calls generalizing s with
  | nil => rfl
  | cons call later ih =>
      rw [List.cons_append, run_cons, run_cons, ih, List.append_assoc]

/-- Every call of the kind `ok` keeps `inv`, of the events so far and the state. -/
def Keeps (m : Machine σ ι ε) (ok : ι → Prop) (inv : List ε → σ → Prop) : Prop :=
  ∀ past s call, ok call → inv past s → inv (past ++ (m s call).2) (m s call).1

/-- **What every call keeps, every run keeps.** -/
theorem Keeps.run {m : Machine σ ι ε} {ok : ι → Prop} {inv : List ε → σ → Prop}
    (keeps : m.Keeps ok inv) {past : List ε} {s : σ} (start : inv past s) {calls : List ι}
    (allOk : ∀ call ∈ calls, ok call) : inv (past ++ (m.run s calls).2) (m.run s calls).1 := by
  induction calls generalizing past s with
  | nil => simpa using start
  | cons call rest ih =>
      have after := ih (keeps past s call (allOk call (List.mem_cons_self ..)) start)
        fun c member => allOk c (List.mem_cons_of_mem _ member)
      rw [List.append_assoc] at after
      exact after

/-- Every call of a run meets a condition on the events before it and the state it
is made in. -/
def AllCalls (m : Machine σ ι ε) (ok : List ε → σ → ι → Prop) : List ε → σ → List ι → Prop
  | _, _, [] => True
  | past, s, call :: rest => ok past s call ∧ m.AllCalls ok (past ++ (m s call).2) (m s call).1 rest

instance allCallsDecidable (m : Machine σ ι ε) (ok : List ε → σ → ι → Prop)
    [∀ past s call, Decidable (ok past s call)] :
    ∀ past s calls, Decidable (m.AllCalls ok past s calls)
  | _, _, [] => isTrue trivial
  | past, s, call :: rest =>
      have := allCallsDecidable m ok (past ++ (m s call).2) (m s call).1 rest
      inferInstanceAs (Decidable (_ ∧ _))

/-- What every call that meets the condition keeps, a run of such calls keeps. -/
theorem AllCalls.keeps {m : Machine σ ι ε} {ok : List ε → σ → ι → Prop} {inv : List ε → σ → Prop}
    (each : ∀ past s call, ok past s call → inv past s → inv (past ++ (m s call).2) (m s call).1)
    {calls : List ι} {past : List ε} {s : σ} (met : m.AllCalls ok past s calls)
    (start : inv past s) : inv (past ++ (m.run s calls).2) (m.run s calls).1 := by
  induction calls generalizing past s with
  | nil => simpa using start
  | cons call rest ih =>
      have after := ih met.2 (each past s call met.1 start)
      rw [List.append_assoc] at after
      exact after

/-- A condition of every call that the condition met implies is met as well. -/
theorem AllCalls.imp {m : Machine σ ι ε} {ok ok' : List ε → σ → ι → Prop} {calls : List ι}
    (weaker : ∀ past s, ∀ call ∈ calls, ok past s call → ok' past s call) {past : List ε} {s : σ}
    (met : m.AllCalls ok past s calls) : m.AllCalls ok' past s calls := by
  induction calls generalizing past s with
  | nil => trivial
  | cons call rest ih =>
      exact ⟨weaker past s call (List.mem_cons_self ..) met.1,
        ih (fun past s c member => weaker past s c (List.mem_cons_of_mem _ member)) met.2⟩

/-! ## Calls made of smaller steps -/

/-- Steps of a relation one after the other, with their events in order. -/
inductive Steps (step : σ → List ε → σ → Prop) : σ → List ε → σ → Prop where
  | refl (s : σ) : Steps step s [] s
  | head {s mid s' : σ} {now later : List ε} (first : step s now mid)
      (rest : Steps step mid later s') : Steps step s (now ++ later) s'

namespace Steps

variable {step : σ → List ε → σ → Prop} {s mid s' : σ} {now later : List ε}

theorem one (first : step s now s') : Steps step s now s' := by
  have single := Steps.head first (.refl s')
  rwa [List.append_nil] at single

theorem trans (first : Steps step s now mid) (rest : Steps step mid later s') :
    Steps step s (now ++ later) s' := by
  induction first with
  | refl => exact rest
  | head move _ ih =>
      rw [List.append_assoc]
      exact .head move (ih rest)

/-- What every step keeps, steps one after the other keep. -/
theorem keeps {inv : List ε → σ → Prop} (steps : Steps step s now s')
    (each : ∀ past s now s', step s now s' → inv past s → inv (past ++ now) s') {past : List ε}
    (start : inv past s) : inv (past ++ now) s' := by
  induction steps generalizing past with
  | refl =>
      rw [List.append_nil]
      exact start
  | head move _ ih =>
      rw [← List.append_assoc]
      exact ih (each _ _ _ _ move start)

end Steps

/-- **What every step keeps, every run keeps**, when the calls are made of steps. -/
theorem run_keeps {m : Machine σ ι ε} {step : σ → List ε → σ → Prop}
    (made : ∀ s call, Steps step s (m s call).2 (m s call).1) {inv : List ε → σ → Prop}
    (each : ∀ past s now s', step s now s' → inv past s → inv (past ++ now) s') {past : List ε}
    {s : σ} (start : inv past s) (calls : List ι) :
    inv (past ++ (m.run s calls).2) (m.run s calls).1 :=
  @Keeps.run σ ι ε m (fun _ => True) inv (fun _ s call _ here => (made s call).keeps each here)
    past s start calls fun _ _ => trivial

/-! ## Parties side by side -/

section Parallel

variable {π α : Type} [DecidableEq π]

/-- What of a tagged list is `p`'s. -/
def ofParty (p : π) (l : List (π × α)) : List α :=
  l.filterMap fun x => if x.1 = p then some x.2 else none

theorem mem_ofParty {p : π} {l : List (π × α)} {a : α} : a ∈ ofParty p l ↔ (p, a) ∈ l := by
  simp only [ofParty, List.mem_filterMap, Prod.exists, Option.ite_none_right_eq_some,
    Option.some.injEq]
  constructor
  · rintro ⟨q, b, here, rfl, rfl⟩
    exact here
  · intro here
    exact ⟨p, a, here, rfl, rfl⟩

@[simp] theorem ofParty_append (p : π) (l l' : List (π × α)) :
    ofParty p (l ++ l') = ofParty p l ++ ofParty p l' := List.filterMap_append

theorem ofParty_map_self (p : π) (l : List α) : ofParty p (l.map (Prod.mk p)) = l := by
  simp [ofParty, List.filterMap_map]

theorem ofParty_map_other {p q : π} (other : q ≠ p) (l : List α) :
    ofParty p (l.map (Prod.mk q)) = [] := by
  simp [ofParty, List.filterMap_map, other]

/-- One machine for each party; each call is one party's, and moves its state. -/
def parallel (m : Machine σ ι ε) : Machine (π → σ) (π × ι) (π × ε) := fun s call =>
  (Function.update s call.1 (m (s call.1) call.2).1,
    (m (s call.1) call.2).2.map (Prod.mk call.1))

/-- **A party ends an interleaving where its own calls alone would have taken
it**, with the events they alone would have answered. -/
theorem parallel_run (m : Machine σ ι ε) (s : π → σ) (calls : List (π × ι)) (p : π) :
    (m.parallel.run s calls).1 p = (m.run (s p) (ofParty p calls)).1 ∧
      ofParty p (m.parallel.run s calls).2 = (m.run (s p) (ofParty p calls)).2 := by
  induction calls generalizing s with
  | nil => exact ⟨rfl, rfl⟩
  | cons call rest ih =>
      obtain ⟨q, c⟩ := call
      obtain ⟨left, answered⟩ := ih (m.parallel s (q, c)).1
      rw [run_cons, ofParty_append, left, answered]
      by_cases same : q = p
      · subst same
        have mine : ofParty q ((q, c) :: rest) = c :: ofParty q rest := by simp [ofParty]
        rw [mine, run_cons]
        simp only [parallel, Function.update_self, ofParty_map_self, and_self]
      · have theirs : ofParty p ((q, c) :: rest) = ofParty p rest := by simp [ofParty, same]
        rw [theirs]
        simp only [parallel, Function.update_of_ne (Ne.symm same), ofParty_map_other same,
          List.nil_append, and_self]

end Parallel

/-! ## Exports and imports -/

/-- A live state, its latest export, and whether that is behind. -/
structure Kept (σ β : Type) where
  live : σ
  latest : Option β
  behind : Bool

/-- A call, an export, or an import of the latest export. -/
inductive StorageCall (ι : Type) where
  | call (c : ι)
  | save
  | load

inductive StorageEvent (ε : Type) where
  | event (e : ε)
  /-- An import took the state back past something that counts. -/
  | rolledBack

/-- The event of the machine itself. -/
def StorageEvent.inner : StorageEvent ε → Option ε
  | .event e => some e
  | .rolledBack => none

section Storage

variable {β : Type}

/-- A machine whose state can be exported and imported again.  An export is
behind once an event that `counts` has happened. -/
def withStorage (m : Machine σ ι ε) (counts : ε → Bool) (save : σ → β) (load : β → Option σ) :
    Machine (Kept σ β) (StorageCall ι) (StorageEvent ε)
  | k, .call c =>
      ({ k with live := (m k.live c).1, behind := k.behind || (m k.live c).2.any counts },
        (m k.live c).2.map .event)
  | k, .save => ({ k with latest := some (save k.live), behind := false }, [])
  | k, .load =>
      match k.latest.bind load with
      | none => (k, [])
      | some s => ({ k with live := s }, if k.behind then [.rolledBack] else [])

theorem filterMap_inner (l : List ε) : (l.map StorageEvent.event).filterMap StorageEvent.inner = l := by
  rw [List.filterMap_map]
  exact List.filterMap_some

/-- **An invariant of events that count survives imports**: if every call keeps
it, events that do not count leave it, and an import restores what was
exported, it holds after every run in which no import rolls back. -/
theorem withStorage_run {m : Machine σ ι ε} {counts : ε → Bool} {save : σ → β}
    {load : β → Option σ} {inv : List ε → σ → Prop}
    (keeps : ∀ past s c, inv past s → inv (past ++ (m s c).2) (m s c).1)
    (idle : ∀ past now s, (∀ e ∈ now, counts e = false) → inv past s → inv (past ++ now) s)
    (restores : ∀ past s s', inv past s → load (save s) = some s' → s' = s) {s : σ}
    (start : inv [] s) (calls : List (StorageCall ι))
    (held : StorageEvent.rolledBack ∉ ((m.withStorage counts save load).run ⟨s, none, false⟩ calls).2) :
    inv (((m.withStorage counts save load).run ⟨s, none, false⟩ calls).2.filterMap StorageEvent.inner)
      ((m.withStorage counts save load).run ⟨s, none, false⟩ calls).1.live := by
  have step : (m.withStorage counts save load).Keeps (fun _ => True) fun past k =>
      StorageEvent.rolledBack ∉ past → inv (past.filterMap StorageEvent.inner) k.live ∧
        (k.behind = false → ∀ b, k.latest = some b →
          ∃ s, b = save s ∧ inv (past.filterMap StorageEvent.inner) s) := by
    intro past k c _ before clean
    obtain ⟨live, latest⟩ := before fun member => clean (List.mem_append_left _ member)
    cases c with
    | call c =>
        have events : (past ++ ((m.withStorage counts save load) k (.call c)).2).filterMap
            StorageEvent.inner = past.filterMap StorageEvent.inner ++ (m k.live c).2 := by
          rw [List.filterMap_append]
          exact congrArg (past.filterMap StorageEvent.inner ++ ·) (filterMap_inner _)
        rw [events]
        refine ⟨keeps _ _ _ live, ?_⟩
        intro level b exported
        simp only [withStorage, Bool.or_eq_false_iff] at level exported
        obtain ⟨s, same, there⟩ := latest level.1 b exported
        refine ⟨s, same, idle _ _ _ ?_ there⟩
        intro e member
        exact Bool.eq_false_iff.2 fun yes => by
          rw [List.any_eq_true.2 ⟨e, member, yes⟩] at level
          simp at level
    | save =>
        simp only [withStorage, List.append_nil]
        refine ⟨live, ?_⟩
        rintro - b exported
        exact ⟨k.live, (Option.some.inj exported).symm, live⟩
    | load =>
        cases found : k.latest.bind load with
        | none =>
            simp only [withStorage, found, List.append_nil]
            exact ⟨live, latest⟩
        | some s' =>
            obtain ⟨b, exported, loaded⟩ := Option.bind_eq_some_iff.1 found
            have level : k.behind = false := by
              by_contra late
              refine clean (List.mem_append_right _ ?_)
              simp only [withStorage, found, Bool.not_eq_false] at late ⊢
              rw [if_pos late]
              exact List.mem_singleton.2 rfl
            obtain ⟨s, rfl, there⟩ := latest level b exported
            have same := restores _ _ _ there loaded
            simp only [withStorage, found, level, Bool.false_eq_true, if_false, List.append_nil]
            exact ⟨same ▸ there, fun _ => latest level⟩
  have run := @Keeps.run _ _ _ _ _ _ step [] ⟨s, none, false⟩
    (fun _ => ⟨start, fun _ _ exported => by simp at exported⟩) calls fun _ _ => trivial
  exact (run held).1

end Storage

end Machine

/-! ## Replacing, with a spare -/

section Replaced

variable {σ α β γ : Type} [DecidableEq γ] {step : σ → α → σ} {mark : σ → γ} {current : σ → β}
  {previous : σ → Option β}

/-- How often a run changed what `mark` reads. -/
def replaced (step : σ → α → σ) (mark : σ → γ) : σ → List α → Nat
  | _, [] => 0
  | s, a :: rest =>
      (if mark (step s a) = mark s then 0 else 1) + replaced step mark (step s a) rest

/-- From `s` to `t`, value and spare stayed, or the value became the spare and
the mark shows it. -/
def Turns (mark : σ → γ) (current : σ → β) (previous : σ → Option β) (s t : σ) : Prop :=
  (current t = current s ∧ previous t = previous s) ∨
    (mark t ≠ mark s ∧ previous t = some (current s))

theorem replaced_never {good : σ → Prop} (keeps : ∀ s a, good s → good (step s a))
    (turns : ∀ s a, good s → Turns mark current previous s (step s a)) {s : σ} (start : good s)
    {l : List α} (never : replaced step mark s l = 0) :
    current (l.foldl step s) = current s ∧ previous (l.foldl step s) = previous s := by
  induction l generalizing s with
  | nil => exact ⟨rfl, rfl⟩
  | cons a rest ih =>
      rw [replaced] at never
      obtain ⟨same, spare⟩ | ⟨other, -⟩ := turns s a start
      · obtain ⟨value, left⟩ := ih (keeps s a start) (by omega)
        exact ⟨value.trans same, left.trans spare⟩
      · rw [if_neg other] at never
        omega

/-- **Replaced at most once, the value is still current or the spare.** -/
theorem replaced_once {good : σ → Prop} (keeps : ∀ s a, good s → good (step s a))
    (turns : ∀ s a, good s → Turns mark current previous s (step s a)) {s : σ} (start : good s)
    {l : List α} (once : replaced step mark s l ≤ 1) :
    current (l.foldl step s) = current s ∨ previous (l.foldl step s) = some (current s) := by
  induction l generalizing s with
  | nil => exact .inl rfl
  | cons a rest ih =>
      rw [replaced] at once
      have next := keeps s a start
      obtain ⟨same, -⟩ | ⟨other, spare⟩ := turns s a start
      · have later := ih next (by omega)
        rwa [same] at later
      · rw [if_neg other] at once
        obtain ⟨-, left⟩ := replaced_never keeps turns next
          (show replaced step mark (step s a) rest = 0 by omega)
        exact .inr (left.trans spare)

theorem replaced_append (s : σ) (l l' : List α) :
    replaced step mark s (l ++ l') = replaced step mark s l + replaced step mark (l.foldl step s) l' := by
  induction l generalizing s with
  | nil => simp [replaced]
  | cons a rest ih => rw [List.cons_append, replaced, replaced, ih, List.foldl_cons, Nat.add_assoc]

end Replaced

end Tacenta
