/-
# Tacenta.Network -- two ends over a network that loses, reorders and repeats

An end answers an input of its own with one message, and takes in a message of
its peer's.  The network keeps all that was sent and hands over any of it, any
number of times, in any order, or never.

`Discipline` is how such a pair is reasoned about, one end at a time: what an end
says of itself and of a common record, what a message says of the record, and how
each end may extend the record without breaking what the other said.
`Discipline.run` makes a fact of every run out of that.
-/
import Tacenta.Runs

set_option autoImplicit false

namespace Tacenta.Network

/-- What one end does with an input, and with a message. -/
structure End (σ ι μ ε : Type) where
  send : σ → ι → μ × σ × List ε
  receive : σ → μ → σ × List ε

/-- The two ends, and what each sent. -/
structure Pair (σ μ : Type) where
  state : Bool → σ
  sent : Bool → List μ

inductive PairCall (ι : Type) where
  | send (x : Bool) (input : ι)
  /-- Hand `x` the `i`-th message its peer sent. -/
  | deliver (x : Bool) (i : Nat)

variable {σ ι μ ε : Type}

def call (e : End σ ι μ ε) : Machine (Pair σ μ) (PairCall ι) (Bool × ε)
  | s, .send x input =>
      let answer := e.send (s.state x) input
      (⟨Function.update s.state x answer.2.1, Function.update s.sent x (s.sent x ++ [answer.1])⟩,
        answer.2.2.map (Prod.mk x))
  | s, .deliver x i =>
      match (s.sent !x)[i]? with
      | none => (s, [])
      | some m =>
          (⟨Function.update s.state x (e.receive (s.state x) m).1, s.sent⟩,
            (e.receive (s.state x) m).2.map (Prod.mk x))

/-- One end sends, and the message is handed over at once. -/
def relay (e : End σ ι μ ε) : Machine (Pair σ μ) (Bool × ι) (Bool × ε) := fun s c =>
  (call e).run s [.send c.1 c.2, .deliver (!c.1) (s.sent c.1).length]

/-- All that is in flight is lost. -/
def Pair.forget (s : Pair σ μ) : Pair σ μ := ⟨s.state, fun _ => []⟩

theorem not_ne (x : Bool) : (!x) ≠ x := by cases x <;> decide

theorem eq_not_of_ne {x y : Bool} (other : y ≠ x) : y = !x := by
  cases x <;> cases y <;> simp_all

/-- **A message relayed** moves its sender, then its receiver. -/
theorem relay_eq (e : End σ ι μ ε) (s : Pair σ μ) (x : Bool) (input : ι) :
    (relay e s (x, input)).1.state x = (e.send (s.state x) input).2.1 ∧
      (relay e s (x, input)).1.state (!x) =
        (e.receive (s.state !x) (e.send (s.state x) input).1).1 := by
  have found : (Function.update s.sent x (s.sent x ++ [(e.send (s.state x) input).1])
      !(!x))[(s.sent x).length]? = some (e.send (s.state x) input).1 := by
    simp only [Bool.not_not, Function.update_self, List.getElem?_concat_length]
  simp only [relay, Machine.run_cons, Machine.run_nil, call, found]
  exact ⟨by rw [Function.update_of_ne (not_ne x).symm, Function.update_self],
    by rw [Function.update_self, Function.update_of_ne (not_ne x)]⟩

/-- A schedule of relayed messages is a run of calls, two for each. -/
theorem relay_run (e : End σ ι μ ε) (s : Pair σ μ) (schedule : List (Bool × ι)) :
    ∃ calls, (relay e).run s schedule = (call e).run s calls ∧
      calls.length = 2 * schedule.length := by
  induction schedule generalizing s with
  | nil => exact ⟨[], rfl, rfl⟩
  | cons c rest ih =>
      obtain ⟨calls, later, length⟩ := ih (relay e s c).1
      refine ⟨[.send c.1 c.2, .deliver (!c.1) (s.sent c.1).length] ++ calls, ?_, ?_⟩
      · refine Prod.ext ?_ ?_
        · rw [Machine.run_append_fst, Machine.run_cons, later]
          rfl
        · rw [Machine.run_append_snd, Machine.run_cons, later]
          rfl
      · rw [List.length_append, length]
        simp only [List.length_cons, List.length_nil]
        omega

/-- **Reasoning about one end at a time**, over a record `γ` of the run. -/
structure Discipline (e : End σ ι μ ε) (γ : Type) where
  /-- What an end that answered with these events knows in this state. -/
  holds : Bool → γ → List ε → σ → Prop
  /-- What a message of this end's says. -/
  honest : Bool → γ → μ → Prop
  /-- How this end may extend the record. -/
  moves : Bool → γ → γ → Prop
  /-- The states the end is asked about. -/
  fine : σ → Prop
  sends : ∀ {x g past s}, fine s → holds x g past s → ∀ input, ∃ g', moves x g g' ∧
    holds x g' (past ++ (e.send s input).2.2) (e.send s input).2.1 ∧ honest x g' (e.send s input).1
  receives : ∀ {x g past s m}, fine s → holds x g past s → honest (!x) g m → ∃ g', moves x g g' ∧
    holds x g' (past ++ (e.receive s m).2) (e.receive s m).1
  /-- What the peer adds leaves alone what an end knows. -/
  stable : ∀ {x g g' past s}, moves (!x) g g' → holds x g past s → holds x g' past s
  remembers : ∀ {x y g g' m}, moves y g g' → honest x g m → honest x g' m

namespace Discipline

open Machine (ofParty ofParty_append ofParty_map_self ofParty_map_other)

variable {e : End σ ι μ ε} {γ : Type} (d : Discipline e γ)

/-- Both ends know what they should, and every message sent is honest. -/
structure Under (g : γ) (log : List (Bool × ε)) (s : Pair σ μ) : Prop where
  knows : ∀ x, d.holds x g (ofParty x log) (s.state x)
  honest : ∀ x, ∀ m ∈ s.sent x, d.honest x g m

variable {d}

/-- One end moves, with its events; the other stands by. -/
theorem Under.moved {g g' : γ} {log : List (Bool × ε)} {s : Pair σ μ} (under : d.Under g log s)
    {x : Bool} {next : σ} {now : List ε} (moves : d.moves x g g')
    (knows : d.holds x g' (ofParty x log ++ now) next) (y : Bool) :
    d.holds y g' (ofParty y (log ++ now.map (Prod.mk x))) (Function.update s.state x next y) := by
  rw [ofParty_append]
  by_cases same : y = x
  · subst same
    rw [ofParty_map_self, Function.update_self]
    exact knows
  · rw [ofParty_map_other (Ne.symm same), List.append_nil, Function.update_of_ne same]
    have peer : (!y) = x := by rw [eq_not_of_ne same, Bool.not_not]
    exact d.stable (by rwa [peer]) (under.knows y)

/-- **One call keeps it**, if the end that is called is in a state it is asked
about. -/
theorem Under.call {g : γ} {log : List (Bool × ε)} {s : Pair σ μ} (under : d.Under g log s)
    (fine : ∀ x, d.fine (s.state x)) (c : PairCall ι) :
    ∃ g', d.Under g' (log ++ (call e s c).2) (call e s c).1 := by
  cases c with
  | send x input =>
      obtain ⟨g', moves, knows, honest⟩ := d.sends (fine x) (under.knows x) input
      refine ⟨g', fun y => under.moved moves knows y, fun y m sent => ?_⟩
      by_cases same : y = x
      · subst same
        simp only [Network.call, Function.update_self] at sent
        rcases List.mem_append.1 sent with before | now
        · exact d.remembers moves (under.honest y m before)
        · rw [List.mem_singleton.1 now]
          exact honest
      · simp only [Network.call, Function.update_of_ne same] at sent
        exact d.remembers moves (under.honest y m sent)
  | deliver x i =>
      cases found : (s.sent !x)[i]? with
      | none =>
          simp only [Network.call, found, List.append_nil]
          exact ⟨g, under⟩
      | some m =>
          have honest := under.honest _ m (List.mem_of_getElem? found)
          obtain ⟨g', moves, knows⟩ := d.receives (fine x) (under.knows x) honest
          simp only [Network.call, found]
          exact ⟨g', fun y => under.moved moves knows y,
            fun y m sent => d.remembers moves (under.honest y m sent)⟩

/-- What is lost leaves what both ends know. -/
theorem Under.forget {g : γ} {log : List (Bool × ε)} {s : Pair σ μ} (under : d.Under g log s) :
    d.Under g log s.forget :=
  ⟨under.knows, fun _ _ sent => by cases sent⟩

/-- **What each end keeps, every run keeps**, for as long as both ends are in
states they are asked about. -/
theorem Under.run {g : γ} {log : List (Bool × ε)} {s : Pair σ μ} (under : d.Under g log s)
    (calls : List (PairCall ι))
    (fine : ∀ before, before <+: calls → ∀ x, d.fine (((Network.call e).run s before).1.state x)) :
    ∃ g', d.Under g' (log ++ ((Network.call e).run s calls).2) ((Network.call e).run s calls).1 := by
  induction calls generalizing g log s with
  | nil =>
      rw [Machine.run_nil, List.append_nil]
      exact ⟨g, under⟩
  | cons c rest ih =>
      obtain ⟨g', next⟩ := under.call (fine [] List.nil_prefix) c
      rw [Machine.run_cons, ← List.append_assoc]
      refine ih next fun before inside x => ?_
      exact fine (c :: before) (List.cons_prefix_cons.2 ⟨rfl, inside⟩) x

end Discipline

end Tacenta.Network
