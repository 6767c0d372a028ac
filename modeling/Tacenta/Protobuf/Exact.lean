/-
# Tacenta.Protobuf.Exact -- the parser accepts exactly its grammar

A turn of the parse takes one field of the profile (`turn_ok`, `turn_item`), so a
whole parse takes a list of them, in whatever order they stand.  A body is filled
by its own fields and no others (`fill_perm`, `perm_fill`), so the fields that
were read are the body's, up to their order; the encoder writes them ascending.
-/
import Tacenta.Protobuf.Message

set_option autoImplicit false

namespace Tacenta.Protobuf

variable {B : Type} {slot : B → UInt32 → Option (Slot B)} {p : Profile B} {initial : B}

/-! ## Filling a body -/

/-- The body with one field's value in its place. -/
def put (slot : B → UInt32 → Option (Slot B)) (b : B) (i : Item) : Option B :=
  match slot b i.field, i.payload with
  | some (.bytes f), .bytes l => some (f l)
  | some (.varint f), .varint v => some (f v)
  | _, _ => none

def fill (slot : B → UInt32 → Option (Slot B)) : B → List Item → Option B
  | b, [] => some b
  | b, i :: rest =>
      match put slot b i with
      | some b' => fill slot b' rest
      | none => none

theorem fill_cons {b b' : B} {i : Item} {rest : List Item} (placed : put slot b i = some b') :
    fill slot b (i :: rest) = fill slot b' rest := by
  rw [fill, placed]

/-- The places of a body are its fields': what a value is put to shows among the
fields and nothing else changes. -/
structure Lawful (slot : B → UInt32 → Option (Slot B)) (p : Profile B) (initial : B) : Prop where
  placed : ∀ b i, p.wire i.field = some i.payload.wire → ∃ b', put slot b i = some b'
  own : ∀ b i b', put slot b i = some b' → p.wire i.field = some i.payload.wire
  shows : ∀ b i b', put slot b i = some b' → i ∈ p.items b'
  others : ∀ b i b', put slot b i = some b' → ∀ j, j.field ≠ i.field →
    (j ∈ p.items b' ↔ j ∈ p.items b)
  known : ∀ field wire, p.wire field = some wire → field ≠ 0 ∧ field ≤ maxFieldNumber
  ascending : ∀ b, Ascending (p.items b)
  owned : ∀ b, ∀ i ∈ p.items b, p.wire i.field = some i.payload.wire
  complete : ∀ b, ∀ field ∈ p.required, field ∈ (p.items b).map Item.field
  few : ∀ b, (p.items b).length ≤ maxFields
  empty : ∀ i ∈ p.items initial, i.field ∈ p.required
  determined : ∀ b b', p.items b = p.items b' → b = b'

theorem Ascending.nodup {items : List Item} (ascending : Ascending items) :
    (items.map Item.field).Nodup := by
  rw [List.Nodup, List.pairwise_map]
  refine List.Pairwise.imp ?_ ascending
  intro i j below
  exact UInt32.ne_of_lt below

theorem Ascending.eq_of_field {items : List Item} (ascending : Ascending items) {i j : Item}
    (first : i ∈ items) (second : j ∈ items) (same : i.field = j.field) : i = j :=
  List.inj_on_of_nodup_map ascending.nodup first second same

/-- Two orders of the same fields that both ascend are one. -/
theorem Ascending.eq_of_perm {items items' : List Item} (ascending : Ascending items)
    (ascending' : Ascending items') (same : items.Perm items') : items = items' := by
  refine List.Perm.eq_of_pairwise ?_ ascending ascending' same
  intro i j _ _ below above
  exact absurd (UInt32.lt_trans below above) (UInt32.lt_irrefl _)

namespace Lawful

theorem fill_some (lawful : Lawful slot p initial) (items : List Item) (b : B)
    (own : ∀ i ∈ items, p.wire i.field = some i.payload.wire) :
    ∃ b', fill slot b items = some b' := by
  induction items generalizing b with
  | nil => exact ⟨b, rfl⟩
  | cons i rest ih =>
      obtain ⟨b', placed⟩ := lawful.placed b i (own i (by simp))
      rw [fill_cons placed]
      exact ih b' fun j later => own j (by simp [later])

/-- What is put to shows, and what is not stays. -/
theorem fill_mem (lawful : Lawful slot p initial) {items : List Item} {b b' : B}
    (made : fill slot b items = some b') (once : (items.map Item.field).Nodup) :
    (∀ i ∈ items, i ∈ p.items b') ∧
      ∀ j, j.field ∉ items.map Item.field → (j ∈ p.items b' ↔ j ∈ p.items b) := by
  induction items generalizing b with
  | nil =>
      cases Option.some.inj made
      exact ⟨by simp, fun _ _ => Iff.rfl⟩
  | cons i rest ih =>
      rw [List.map_cons, List.nodup_cons] at once
      rw [fill] at made
      cases here : put slot b i with
      | none =>
          rw [here] at made
          cases made
      | some mid =>
          rw [here] at made
          obtain ⟨later, kept⟩ := ih made once.2
          constructor
          · intro j member
            rcases List.mem_cons.1 member with rfl | member
            · exact (kept j once.1).2 (lawful.shows b j mid here)
            · exact later j member
          · intro j apart
            rw [List.map_cons, List.mem_cons, not_or] at apart
            exact (kept j apart.2).trans (lawful.others b i mid here j apart.1)

/-- **A body that was filled has the fields it was filled with.** -/
theorem fill_perm (lawful : Lawful slot p initial) {items : List Item} {b : B}
    (made : fill slot initial items = some b) (once : (items.map Item.field).Nodup)
    (complete : ∀ field ∈ p.required, field ∈ items.map Item.field) :
    items.Perm (p.items b) := by
  obtain ⟨filled, kept⟩ := lawful.fill_mem made once
  refine (List.perm_ext_iff_of_nodup (.of_map _ once) (.of_map _ (lawful.ascending b).nodup)).2 ?_
  intro i
  constructor
  · exact filled i
  · intro member
    by_cases read : i.field ∈ items.map Item.field
    · obtain ⟨j, there, same⟩ := List.mem_map.1 read
      rwa [← (lawful.ascending b).eq_of_field (filled j there) member same]
    · exact absurd (complete _ (lawful.empty i ((kept i read).1 member))) read

/-- **The fields of a body, in any order, fill that body.** -/
theorem perm_fill (lawful : Lawful slot p initial) {items : List Item} {b : B}
    (same : items.Perm (p.items b)) : fill slot initial items = some b := by
  have once : (items.map Item.field).Nodup :=
    (same.map Item.field).nodup_iff.2 (lawful.ascending b).nodup
  obtain ⟨b', made⟩ := lawful.fill_some items initial fun i member =>
    lawful.owned b i (same.mem_iff.1 member)
  have filled := lawful.fill_perm made once fun field needed =>
    (same.map Item.field).mem_iff.2 (lawful.complete b field needed)
  have equal : p.items b' = p.items b :=
    (lawful.ascending b').eq_of_perm (lawful.ascending b) (filled.symm.trans same)
  rw [made, lawful.determined _ _ equal]

end Lawful

/-! ## One turn -/

theorem admit_ok {seen seen' : FieldSet} {field : UInt32} (admitted : seen.admit_ field = (seen', none)) :
    field ∉ seen.seen ∧ seen'.seen = seen.seen ++ [field] := by
  unfold FieldSet.admit_ FieldSet.contains at admitted
  split at admitted
  · cases admitted
  · rename_i new
    split at admitted
    · cases admitted
    · cases admitted
      exact ⟨by simpa using new, rfl⟩

theorem admit_new {seen : FieldSet} {field : UInt32} (new : field ∉ seen.seen)
    (room : seen.seen.length < maxFields) :
    seen.admit_ field = ({ seen := seen.seen ++ [field] }, none) := by
  unfold FieldSet.admit_ FieldSet.contains
  rw [if_neg (by simpa using new), if_neg (Nat.not_le_of_lt room)]

/-- **A turn that does not refuse takes one field.** -/
theorem turn_ok {st : Parse B} (clear : (oneFieldWith slot st).error = none) :
    ∃ i b', st.rest = i.spell ++ (oneFieldWith slot st).rest ∧ i.field ∉ st.seen.seen ∧
      (oneFieldWith slot st).seen.seen = st.seen.seen ++ [i.field] ∧
      put slot st.body i = some b' ∧ (oneFieldWith slot st).body = b' := by
  unfold oneFieldWith at clear ⊢
  split at clear
  · cases clear
  · rename_i t rest tagged
    obtain ⟨used, taken, rfl, known⟩ := consumes_tag _ _ _ tagged
    split at clear
    · cases clear
    · rename_i seen admitted
      obtain ⟨new, seen_eq⟩ := admit_ok admitted
      split at clear
      · cases clear
      · rename_i store found
        split at clear
        · cases clear
        · rename_i wire
          rw [not_not] at wire
          split at clear
          · rename_i v after read
            obtain ⟨used, rfl, rfl⟩ := consumes_lengthDelimited _ _ _ read
            rw [if_neg (not_not.2 wire)]
            refine ⟨⟨t.field, .bytes v⟩, store v, ?_, new, seen_eq, ?_, rfl⟩
            · rw [taken, ← List.append_assoc]
              obtain ⟨field, code⟩ := t
              cases wire
              rfl
            · simp only [put, found]
          · cases clear
      · rename_i store found
        split at clear
        · cases clear
        · rename_i wire
          rw [not_not] at wire
          split at clear
          · rename_i v after read
            obtain ⟨used, rfl, rfl⟩ := consumes_varint _ _ _ read
            rw [if_neg (not_not.2 wire)]
            refine ⟨⟨t.field, .varint v⟩, store v, ?_, new, seen_eq, ?_, rfl⟩
            · rw [taken, ← List.append_assoc]
              obtain ⟨field, code⟩ := t
              cases wire
              rfl
            · simp only [put, found]
          · cases clear

/-- **A field of the body that was not seen is taken.** -/
theorem turn_item {rest : Bytes} {seen : FieldSet} {body b' : B} {i : Item} (known : i.tag.Known)
    (short : i.spell.length ≤ maxMessageLen) (new : i.field ∉ seen.seen)
    (room : seen.seen.length < maxFields) (placed : put slot body i = some b') :
    oneFieldWith slot { rest := i.spell ++ rest, seen := seen, body := body, error := none } =
      { rest := rest, seen := { seen := seen.seen ++ [i.field] }, body := b', error := none } := by
  have tagged : tag (i.spell ++ rest) = .ok (i.tag, i.payload.spell ++ rest) := by
    rw [Item.spell, List.append_assoc]
    exact reads_tag known _
  have admitted : seen.admit_ i.tag.field = ({ seen := seen.seen ++ [i.field] }, none) :=
    admit_new new room
  obtain ⟨field, payload⟩ := i
  cases payload with
  | bytes l =>
      have small : l.length < 2 ^ 32 := by
        have : l.length ≤ maxMessageLen := by
          refine Nat.le_trans ?_ short
          simp only [Item.spell, Payload.spell, List.length_append]
          omega
        exact this.trans_lt (by decide)
      have read : lengthDelimited (Payload.spell (.bytes l) ++ rest) = .ok (l, rest) :=
        reads_lengthDelimited small rest
      unfold put at placed
      split at placed
      · rename_i f l' found payload
        cases payload
        cases placed
        have found : slot body (Item.tag ⟨field, .bytes l⟩).field = some (.bytes f) := found
        simp only [oneFieldWith, tagged, admitted, found, read]
        rfl
      · rename_i wrong
        cases wrong
      · cases placed
  | varint v =>
      have read : varint (Payload.spell (.varint v) ++ rest) = .ok (v, rest) := reads_varint v rest
      unfold put at placed
      split at placed
      · rename_i wrong
        cases wrong
      · rename_i f v' found payload
        cases payload
        cases placed
        have found : slot body (Item.tag ⟨field, .varint v⟩).field = some (.varint f) := found
        simp only [oneFieldWith, tagged, admitted, found, read]
        rfl
      · cases placed

/-! ## The loop -/

theorem parseLoop_refused (turns : Nat) {st : Parse B} (refused : st.error ≠ none) :
    parseLoop slot turns st = st := by
  cases turns with
  | zero => rfl
  | succ turns =>
      cases here : st.error with
      | none => exact absurd here refused
      | some e => simp [parseLoop, here]

/-- **A loop that ends without a refusal took a list of fields**, each its own
and none twice. -/
theorem parseLoop_ok (turns : Nat) {st : Parse B}
    (clear : (parseLoop slot turns st).error = none) (once : st.seen.seen.Nodup) :
    ∃ items, st.rest = items.flatMap Item.spell ++ (parseLoop slot turns st).rest ∧
      (parseLoop slot turns st).seen.seen = st.seen.seen ++ items.map Item.field ∧
      (st.seen.seen ++ items.map Item.field).Nodup ∧
      fill slot st.body items = some (parseLoop slot turns st).body := by
  induction turns generalizing st with
  | zero => exact ⟨[], by simp [parseLoop], by simp [parseLoop], by simpa using once, rfl⟩
  | succ turns ih =>
      rw [parseLoop] at clear ⊢
      by_cases more : (st.error.isNone && decide (st.rest.length > 0)) = true
      · rw [if_pos more] at clear ⊢
        have fine : (oneFieldWith slot st).error = none := by
          by_contra refused
          rw [parseLoop_refused turns refused] at clear
          exact refused clear
        obtain ⟨i, b', taken, new, seen, placed, body⟩ := turn_ok fine
        have once' : (oneFieldWith slot st).seen.seen.Nodup := by
          rw [seen, List.nodup_append_comm, List.singleton_append, List.nodup_cons]
          exact ⟨new, once⟩
        obtain ⟨items, rest, after, distinct, made⟩ := ih clear once'
        refine ⟨i :: items, ?_, ?_, ?_, ?_⟩
        · rw [taken, rest, List.flatMap_cons, List.append_assoc]
        · rw [after, seen, List.map_cons, List.append_assoc, List.singleton_append]
        · rwa [seen, List.append_assoc, List.singleton_append] at distinct
        · rw [fill_cons placed, ← body, made]
      · rw [if_neg more]
        exact ⟨[], by simp, by simp, by simpa using once, rfl⟩

theorem length_spell_pos (i : Item) : 0 < i.spell.length := by
  rw [Item.spell, List.length_append, Tag.spell]
  have := Base128.length_spell_pos (i.tag.field.toNat * 8 + (wireCode i.tag.wire).toNat)
  omega

/-- **The loop takes every list of fields** the turns suffice for. -/
theorem parseLoop_items (turns : Nat) {items : List Item} {seen : FieldSet} {body b' : B}
    (enough : items.length ≤ turns) (known : ∀ i ∈ items, i.tag.Known)
    (short : (items.flatMap Item.spell).length ≤ maxMessageLen)
    (once : (seen.seen ++ items.map Item.field).Nodup)
    (room : (seen.seen ++ items.map Item.field).length ≤ maxFields)
    (made : fill slot body items = some b') :
    parseLoop slot turns
        { rest := items.flatMap Item.spell, seen := seen, body := body, error := none } =
      { rest := [], seen := { seen := seen.seen ++ items.map Item.field }, body := b',
        error := none } := by
  induction items generalizing turns seen body with
  | nil =>
      cases Option.some.inj made
      cases turns <;> simp [parseLoop]
  | cons i items ih =>
      cases turns with
      | zero => exact absurd enough (by simp)
      | succ turns =>
          rw [fill] at made
          cases placed : put slot body i with
          | none =>
              rw [placed] at made
              cases made
          | some mid =>
              rw [placed] at made
              have positive := length_spell_pos i
              rw [List.flatMap_cons, List.length_append] at short
              rw [List.map_cons] at once room ⊢
              have new : i.field ∉ seen.seen := by
                intro before
                exact (List.nodup_append.1 once).2.2 _ before _ (by simp) rfl
              have width : seen.seen.length < maxFields := by
                rw [List.length_append, List.length_cons] at room
                omega
              have turn := @turn_item _ slot (items.flatMap Item.spell) seen body mid i
                (known i (by simp)) (by omega) new width placed
              have joined : seen.seen ++ i.field :: items.map Item.field =
                  seen.seen ++ [i.field] ++ items.map Item.field := by
                rw [List.append_assoc, List.singleton_append]
              rw [joined] at once room ⊢
              rw [List.flatMap_cons, parseLoop, if_pos, turn]
              · exact ih turns (by simpa using enough) (fun j later => known j (by simp [later]))
                  (by omega) once room made
              · show decide ((i.spell ++ items.flatMap Item.spell).length > 0) = true
                rw [List.length_append]
                exact decide_eq_true (by omega)

/-! ## The parse -/

/-- What a profile's parser and encoder owe its grammar. -/
structure Exact (p : Profile B) (parse : Bytes → Except ProtoError B)
    (encode : B → Except ProtoError Bytes) : Prop where
  accepts : ∀ bytes, (∃ body, parse bytes = .ok body) ↔ ∃ items, p.Grammar bytes items
  spells : ∀ bytes body, parse bytes = .ok body ↔
    ∃ items, p.Grammar bytes items ∧ items.Perm (p.items body)
  restores : ∀ body bytes, encode body = .ok bytes → parse bytes = .ok body
  reproduces : ∀ bytes body items, parse bytes = .ok body → p.Grammar bytes items →
    (encode body = .ok bytes ↔ Ascending items)

namespace Lawful

theorem parse_ok (lawful : Lawful slot p initial) {bytes : Bytes} {body : B}
    (parsed : parseWith slot p.required initial bytes = .ok body) :
    ∃ items, p.Grammar bytes items ∧ items.Perm (p.items body) := by
  unfold parseWith at parsed
  split at parsed
  · cases parsed
  · rename_i short
    simp only at parsed
    split at parsed
    · cases parsed
    · rename_i clear
      split at parsed
      · cases parsed
      · rename_i ended
        split at parsed
        · cases parsed
        · rename_i present
          have start : (FieldSet.new).seen.Nodup := List.nodup_nil
          obtain ⟨items, taken, seen, once, made⟩ := @parseLoop_ok _ slot maxFields
            { rest := bytes, seen := .new, body := initial, error := none } clear start
          have empty := List.eq_nil_of_length_eq_zero (Nat.eq_zero_of_not_pos ended)
          rw [empty, List.append_nil] at taken
          rw [Except.ok.inj parsed] at made
          have complete : ∀ field ∈ p.required, field ∈ items.map Item.field := by
            intro field needed
            by_contra absent
            refine present (List.any_eq_true.2 ⟨field, needed, ?_⟩)
            rw [FieldSet.contains, seen, Bool.not_eq_true', ← Bool.not_eq_true, List.contains_iff_mem]
            exact absent
          have same := lawful.fill_perm made once complete
          exact ⟨items, ⟨Nat.le_of_not_lt short, taken, once,
            fun i member => lawful.owned body i (same.mem_iff.1 member), complete⟩, same⟩

/-- The loop over a message, to its end. -/
theorem loop_of (lawful : Lawful slot p initial) {bytes : Bytes} {body : B} {items : List Item}
    (grammar : p.Grammar bytes items) (same : items.Perm (p.items body)) :
    parseLoop slot maxFields { rest := bytes, seen := .new, body := initial, error := none } =
      { rest := [], seen := { seen := items.map Item.field }, body := body, error := none } := by
  have few : items.length ≤ maxFields := same.length_eq ▸ lawful.few body
  have made := lawful.perm_fill same
  have known : ∀ i ∈ items, i.tag.Known := fun i member =>
    lawful.known i.field _ (grammar.own i member)
  rw [grammar.spelled]
  exact @parseLoop_items _ slot maxFields items .new initial body few known
    (grammar.spelled ▸ grammar.short) (by simpa [FieldSet.new] using grammar.once)
    (by simpa [FieldSet.new] using few) made

theorem parse_of (lawful : Lawful slot p initial) {bytes : Bytes} {body : B} {items : List Item}
    (grammar : p.Grammar bytes items) (same : items.Perm (p.items body)) :
    parseWith slot p.required initial bytes = .ok body := by
  have loop := lawful.loop_of grammar same
  have present : (p.required.any fun field => !(items.map Item.field).contains field) = false := by
    rw [List.any_eq_false]
    intro field needed
    rw [Bool.not_eq_true', Bool.not_eq_false, List.contains_iff_mem]
    exact grammar.complete field needed
  rw [parseWith, if_neg (Nat.not_lt_of_le grammar.short), loop]
  simp only [FieldSet.contains, present, List.length_nil]
  rfl

theorem exact (lawful : Lawful slot p initial) {encode : B → Except ProtoError Bytes}
    (writes : ∀ body, encode body = bounded ((p.items body).flatMap Item.spell)) :
    Exact p (parseWith slot p.required initial) encode := by
  have own_grammar : ∀ body bytes, encode body = .ok bytes → p.Grammar bytes (p.items body) := by
    intro body bytes written
    rw [writes, bounded] at written
    split at written
    · rename_i short
      cases written
      exact ⟨short, rfl, (lawful.ascending body).nodup, lawful.owned body, lawful.complete body⟩
    · cases written
  have filled : ∀ bytes items, p.Grammar bytes items → ∃ body,
      parseWith slot p.required initial bytes = .ok body ∧ items.Perm (p.items body) := by
    intro bytes items grammar
    obtain ⟨body, made⟩ := lawful.fill_some items initial grammar.own
    have same := lawful.fill_perm made grammar.once grammar.complete
    exact ⟨body, lawful.parse_of grammar same, same⟩
  constructor
  · intro bytes
    constructor
    · rintro ⟨body, parsed⟩
      obtain ⟨items, grammar, -⟩ := lawful.parse_ok parsed
      exact ⟨items, grammar⟩
    · rintro ⟨items, grammar⟩
      obtain ⟨body, parsed, -⟩ := filled bytes items grammar
      exact ⟨body, parsed⟩
  · intro bytes body
    constructor
    · exact lawful.parse_ok
    · rintro ⟨items, grammar, same⟩
      exact lawful.parse_of grammar same
  · intro body bytes written
    exact lawful.parse_of (own_grammar body bytes written) (.refl _)
  · intro bytes body items parsed grammar
    obtain ⟨body', parsed', same⟩ := filled bytes items grammar
    rw [parsed] at parsed'
    cases Except.ok.inj parsed'
    constructor
    · intro written
      -- The loop records the fields in the order it meets them, whoever lists them.
      have order : items.map Item.field = (p.items body).map Item.field := by
        have listed := lawful.loop_of grammar same
        rw [lawful.loop_of (own_grammar body bytes written) (.refl _)] at listed
        injection listed with _ seen
        injection seen with fields
        exact fields.symm
      have ascends : ((p.items body).map Item.field).Pairwise fun i j => i < j :=
        List.pairwise_map.2 (lawful.ascending body)
      rw [← order] at ascends
      exact List.pairwise_map.1 ascends
    · intro ascending
      rw [writes, ← ascending.eq_of_perm (lawful.ascending body) same, ← grammar.spelled,
        bounded_short grammar.short]

end Lawful

/-! ## The encoders -/

/-- `f` appends `l`, within the limit. -/
def Writes (f : Bytes → Except ProtoError Bytes) (l : Bytes) : Prop :=
  ∀ out, f out = bounded (out ++ l)

namespace Writes

variable {f g : Bytes → Except ProtoError Bytes} {l m : Bytes}

theorem bind (first : Writes f l) (second : Writes g m) : Writes (fun out => f out >>= g) (l ++ m) := by
  intro out
  show (f out >>= g) = bounded (out ++ (l ++ m))
  rw [first out, ← List.append_assoc]
  by_cases room : (out ++ l).length ≤ maxMessageLen
  · rw [bounded_short room]
    exact second (out ++ l)
  · rw [bounded_long (Nat.lt_of_not_le room), bounded_long]
    · rfl
    · rw [List.length_append]
      omega

theorem bytes (field : UInt32) (known : (Tag.mk field .lengthDelimited).Known) (v : Bytes)
    (rest : Writes g m) :
    Writes (fun out => do
      let out ← encodeTag out field .lengthDelimited
      let out ← encodeLengthDelimited out v
      g out) (Item.spell ⟨field, .bytes v⟩ ++ m) := by
  have tagged : Writes (fun out => encodeTag out field .lengthDelimited)
      (Tag.mk field .lengthDelimited).spell := fun out => encodeTag_eq out known
  have valued : Writes (fun out => encodeLengthDelimited out v) (Payload.bytes v).spell :=
    fun out => encodeLengthDelimited_eq out v
  rw [Item.spell, List.append_assoc]
  exact tagged.bind (valued.bind rest)

theorem varint (field : UInt32) (known : (Tag.mk field .varint).Known) (v : UInt32)
    (rest : Writes g m) :
    Writes (fun out => do
      let out ← encodeTag out field .varint
      let out ← encodeVarint out v
      g out) (Item.spell ⟨field, .varint v⟩ ++ m) := by
  have tagged : Writes (fun out => encodeTag out field .varint) (Tag.mk field .varint).spell :=
    fun out => encodeTag_eq out known
  have valued : Writes (fun out => encodeVarint out v) (Payload.varint v).spell :=
    fun out => encodeVarint_eq out v
  rw [Item.spell, List.append_assoc]
  exact tagged.bind (valued.bind rest)

/-- The last field. -/
theorem last (field : UInt32) (known : (Tag.mk field .lengthDelimited).Known) (v : Bytes) :
    Writes (fun out => do
      let out ← encodeTag out field .lengthDelimited
      encodeLengthDelimited out v) (Item.spell ⟨field, .bytes v⟩) := by
  have tagged : Writes (fun out => encodeTag out field .lengthDelimited)
      (Tag.mk field .lengthDelimited).spell := fun out => encodeTag_eq out known
  have valued : Writes (fun out => encodeLengthDelimited out v) (Payload.bytes v).spell :=
    fun out => encodeLengthDelimited_eq out v
  exact tagged.bind valued

end Writes

/-! ## The ratchet message -/

theorem encodeRatchetBody_eq (body : RatchetBody) :
    encodeRatchetBody body = bounded (body.items.flatMap Item.spell) := by
  have writes := Writes.bytes fieldRatchetKey (by decide) body.ratchetKey
    (.varint fieldCounter (by decide) body.counter
      (.varint fieldPreviousCounter (by decide) body.previousCounter
        (.bytes fieldCiphertext (by decide) body.ciphertext
          (.last fieldPq (by decide) body.pq)))) []
  simpa [encodeRatchetBody, RatchetBody.items] using writes

theorem RatchetBody.put_cases {b b' : RatchetBody} {i : Item}
    (placed : put RatchetBody.slot b i = some b') :
    (∃ l, i = ⟨fieldRatchetKey, .bytes l⟩ ∧ b' = { b with ratchetKey := l }) ∨
    (∃ v, i = ⟨fieldCounter, .varint v⟩ ∧ b' = { b with counter := v }) ∨
    (∃ v, i = ⟨fieldPreviousCounter, .varint v⟩ ∧ b' = { b with previousCounter := v }) ∨
    (∃ l, i = ⟨fieldCiphertext, .bytes l⟩ ∧ b' = { b with ciphertext := l }) ∨
    ∃ l, i = ⟨fieldPq, .bytes l⟩ ∧ b' = { b with pq := l } := by
  obtain ⟨field, payload⟩ := i
  unfold put RatchetBody.slot at placed
  simp only at placed
  split_ifs at placed with h1 h2 h3 h4 h5 <;> cases payload <;> cases placed <;> simp [*]

theorem RatchetBody.put_own {b : RatchetBody} {i : Item}
    (own : ratchetProfile.wire i.field = some i.payload.wire) :
    ∃ b', put RatchetBody.slot b i = some b' := by
  obtain ⟨field, payload⟩ := i
  simp only [ratchetProfile] at own
  split_ifs at own with bytes varint
  · cases payload with
    | varint v => cases own
    | bytes l => rcases bytes with rfl | rfl | rfl <;> exact ⟨_, rfl⟩
  · cases payload with
    | varint v => rcases varint with rfl | rfl <;> exact ⟨_, rfl⟩
    | bytes l => cases own

theorem ratchet_lawful : Lawful RatchetBody.slot ratchetProfile RatchetBody.initial where
  placed _ _ own := RatchetBody.put_own own
  own b i b' placed := by
    obtain ⟨_, rfl, -⟩ | ⟨_, rfl, -⟩ | ⟨_, rfl, -⟩ | ⟨_, rfl, -⟩ | ⟨_, rfl, -⟩ :=
      RatchetBody.put_cases placed <;> rfl
  shows b i b' placed := by
    obtain ⟨_, rfl, rfl⟩ | ⟨_, rfl, rfl⟩ | ⟨_, rfl, rfl⟩ | ⟨_, rfl, rfl⟩ | ⟨_, rfl, rfl⟩ :=
      RatchetBody.put_cases placed <;> simp [ratchetProfile, RatchetBody.items]
  others b i b' placed j apart := by
    have ne : ∀ field payload, i.field = field → j ≠ ⟨field, payload⟩ := by
      rintro field payload rfl rfl
      exact apart rfl
    obtain ⟨_, rfl, rfl⟩ | ⟨_, rfl, rfl⟩ | ⟨_, rfl, rfl⟩ | ⟨_, rfl, rfl⟩ | ⟨_, rfl, rfl⟩ :=
      RatchetBody.put_cases placed <;> simp [ratchetProfile, RatchetBody.items, ne _ _ rfl]
  known field wire own := by
    simp only [ratchetProfile] at own
    split_ifs at own with bytes varint
    · rcases bytes with rfl | rfl | rfl <;> decide
    · rcases varint with rfl | rfl <;> decide
  ascending b := by
    have numbers : ((ratchetProfile.items b).map Item.field).Pairwise fun i j => i < j := by
      show RatchetBody.required.Pairwise fun i j => i < j
      decide
    exact List.pairwise_map.1 numbers
  owned b i member := by
    simp only [ratchetProfile, RatchetBody.items, List.mem_cons, List.not_mem_nil, or_false] at member
    rcases member with rfl | rfl | rfl | rfl | rfl <;> rfl
  complete b field needed := needed
  few b := by
    show 5 ≤ maxFields
    decide
  empty i member := by
    have := List.mem_map_of_mem (f := Item.field) member
    exact this
  determined b b' same := by
    obtain ⟨_, _, _, _, _⟩ := b
    obtain ⟨_, _, _, _, _⟩ := b'
    simpa [ratchetProfile, RatchetBody.items] using same

/-! ## The prekey envelope -/

theorem encodePrekeyBody_eq (body : PrekeyBody) :
    encodePrekeyBody body = bounded (body.items.flatMap Item.spell) := by
  have writes := Writes.bytes fieldBaseKey (by decide) body.baseKey
    (.bytes fieldIdentityKey (by decide) body.identityKey
      (.bytes fieldMessage (by decide) body.message
        (.varint fieldRegistrationId (by decide) body.registrationId
          (.varint fieldSignedPrekeyId (by decide) body.signedPrekeyId
            (.varint fieldPqPrekeyId (by decide) body.pqPrekeyId
              (.last fieldKem (by decide) body.kem))))))
  cases here : body.prekeyId with
  | none =>
      have written := writes []
      simpa [encodePrekeyBody, PrekeyBody.items, here, bind, Except.bind] using written
  | some id =>
      have written := Writes.varint fieldPrekeyId (by decide) id writes []
      simpa [encodePrekeyBody, PrekeyBody.items, here] using written

theorem PrekeyBody.put_cases {b b' : PrekeyBody} {i : Item}
    (placed : put PrekeyBody.slot b i = some b') :
    (∃ v, i = ⟨fieldPrekeyId, .varint v⟩ ∧ b' = { b with prekeyId := some v }) ∨
    (∃ l, i = ⟨fieldBaseKey, .bytes l⟩ ∧ b' = { b with baseKey := l }) ∨
    (∃ l, i = ⟨fieldIdentityKey, .bytes l⟩ ∧ b' = { b with identityKey := l }) ∨
    (∃ l, i = ⟨fieldMessage, .bytes l⟩ ∧ b' = { b with message := l }) ∨
    (∃ v, i = ⟨fieldRegistrationId, .varint v⟩ ∧ b' = { b with registrationId := v }) ∨
    (∃ v, i = ⟨fieldSignedPrekeyId, .varint v⟩ ∧ b' = { b with signedPrekeyId := v }) ∨
    (∃ v, i = ⟨fieldPqPrekeyId, .varint v⟩ ∧ b' = { b with pqPrekeyId := v }) ∨
    ∃ l, i = ⟨fieldKem, .bytes l⟩ ∧ b' = { b with kem := l } := by
  obtain ⟨field, payload⟩ := i
  unfold put PrekeyBody.slot at placed
  simp only at placed
  split_ifs at placed <;> cases payload <;> cases placed <;> simp [*]

theorem PrekeyBody.put_own {b : PrekeyBody} {i : Item}
    (own : prekeyProfile.wire i.field = some i.payload.wire) :
    ∃ b', put PrekeyBody.slot b i = some b' := by
  obtain ⟨field, payload⟩ := i
  simp only [prekeyProfile] at own
  split_ifs at own with bytes varint
  · cases payload with
    | varint v => cases own
    | bytes l => rcases bytes with rfl | rfl | rfl | rfl <;> exact ⟨_, rfl⟩
  · cases payload with
    | varint v => rcases varint with rfl | rfl | rfl | rfl <;> exact ⟨_, rfl⟩
    | bytes l => cases own

theorem prekey_lawful : Lawful PrekeyBody.slot prekeyProfile PrekeyBody.initial where
  placed _ _ own := PrekeyBody.put_own own
  own b i b' placed := by
    obtain ⟨_, rfl, -⟩ | ⟨_, rfl, -⟩ | ⟨_, rfl, -⟩ | ⟨_, rfl, -⟩ | ⟨_, rfl, -⟩ | ⟨_, rfl, -⟩ |
      ⟨_, rfl, -⟩ | ⟨_, rfl, -⟩ := PrekeyBody.put_cases placed <;> rfl
  shows b i b' placed := by
    obtain ⟨_, rfl, rfl⟩ | ⟨_, rfl, rfl⟩ | ⟨_, rfl, rfl⟩ | ⟨_, rfl, rfl⟩ | ⟨_, rfl, rfl⟩ |
      ⟨_, rfl, rfl⟩ | ⟨_, rfl, rfl⟩ | ⟨_, rfl, rfl⟩ := PrekeyBody.put_cases placed <;>
      simp [prekeyProfile, PrekeyBody.items]
  others b i b' placed j apart := by
    have ne : ∀ field payload, i.field = field → j ≠ ⟨field, payload⟩ := by
      rintro field payload rfl rfl
      exact apart rfl
    have ne' : ∀ field payload, i.field = field → ⟨field, payload⟩ ≠ j := fun field payload same =>
      (ne field payload same).symm
    obtain ⟨_, rfl, rfl⟩ | ⟨_, rfl, rfl⟩ | ⟨_, rfl, rfl⟩ | ⟨_, rfl, rfl⟩ | ⟨_, rfl, rfl⟩ |
      ⟨_, rfl, rfl⟩ | ⟨_, rfl, rfl⟩ | ⟨_, rfl, rfl⟩ := PrekeyBody.put_cases placed <;>
      simp [prekeyProfile, PrekeyBody.items, ne _ _ rfl, ne' _ _ rfl]
  known field wire own := by
    simp only [prekeyProfile] at own
    split_ifs at own with bytes varint
    · rcases bytes with rfl | rfl | rfl | rfl <;> decide
    · rcases varint with rfl | rfl | rfl | rfl <;> decide
  ascending b := by
    have numbers : ((prekeyProfile.items b).map Item.field).Pairwise fun i j => i < j := by
      obtain ⟨_ | id, _, _, _, _, _, _, _⟩ := b
      · show PrekeyBody.required.Pairwise fun i j => i < j
        decide
      · show (fieldPrekeyId :: PrekeyBody.required).Pairwise fun i j => i < j
        decide
    exact List.pairwise_map.1 numbers
  owned b i member := by
    simp only [prekeyProfile, PrekeyBody.items, List.mem_append, List.mem_map, List.mem_cons,
      List.not_mem_nil, or_false] at member
    rcases member with ⟨_, -, rfl⟩ | rfl | rfl | rfl | rfl | rfl | rfl | rfl <;> rfl
  complete b field needed := by
    obtain ⟨_ | id, _, _, _, _, _, _, _⟩ := b
    · exact needed
    · exact List.mem_cons_of_mem fieldPrekeyId needed
  few b := by
    obtain ⟨_ | id, _, _, _, _, _, _, _⟩ := b
    · show 7 ≤ maxFields
      decide
    · show 8 ≤ maxFields
      decide
  empty i member := by
    have := List.mem_map_of_mem (f := Item.field) member
    exact this
  determined b b' same := by
    obtain ⟨_ | id, _, _, _, _, _, _, _⟩ := b <;> obtain ⟨_ | id', _, _, _, _, _, _, _⟩ := b'
    · simpa [prekeyProfile, PrekeyBody.items] using same
    · exact absurd (congrArg List.length same) (by decide : ¬7 = 8)
    · exact absurd (congrArg List.length same) (by decide : ¬8 = 7)
    · simpa [prekeyProfile, PrekeyBody.items] using same

/-- **The protobuf profile is parsed exactly.**  Both parsers accept the byte
strings of their grammar and return the body whose fields were read; what an
encoder writes parses back; and an accepted string is written again exactly when
its fields ascend. -/
theorem protobuf_profile_exact :
    Exact ratchetProfile parseRatchetBody encodeRatchetBody ∧
      Exact prekeyProfile parsePrekeyBody encodePrekeyBody :=
  ⟨ratchet_lawful.exact encodeRatchetBody_eq, prekey_lawful.exact encodePrekeyBody_eq⟩

end Tacenta.Protobuf
