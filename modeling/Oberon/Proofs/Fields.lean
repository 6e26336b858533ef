import Oberon.Grammar.Assembly

/-!
# Reading a tree by its fields

A node is seen through its fields: the part in a role, or all parts in a role.  `Kind.slots` gives
the fields of each kind in the order of the grammar, where a list and its separators, terminators or
semicolons take turns.  `Tree.reading` reads the tokens off the fields alone.

If the roles of the children of every node follow the slots of its kind (`Tree.Arranged`), then
reading by fields gives every token once and in the order of the children
(`Tree.reading_eq_tokens`).
-/

namespace Oberon

/-- A stretch of a construct in the order of the grammar: at most one part, parts in one role, or
items and what stands between or after them in turn. -/
inductive Slot where
  | single (role : Role)
  | repeated (role : Role)
  | alternating (first second : Role)
  deriving DecidableEq, Repr

namespace Slot

/-- The roles of the parts in a slot. -/
def roles : Slot → List Role
  | single role => [role]
  | repeated role => [role]
  | alternating first second => [first, second]

/-- The slots of some fields.  Two lists in a row take turns. -/
def ofFields : List Field → List Slot
  | ⟨first, .many⟩ :: ⟨second, .many⟩ :: rest => alternating first second :: ofFields rest
  | ⟨role, .many⟩ :: rest => repeated role :: ofFields rest
  | ⟨role, _⟩ :: rest => single role :: ofFields rest
  | [] => []

/-- One of the first list, one of the second, and so on. -/
def interleave {α : Type} : List α → List α → List α
  | [], ys => ys
  | x :: xs, [] => x :: xs
  | x :: xs, y :: ys => x :: y :: interleave xs ys

/-- What the parts in a slot hold.  Of the parts in a single role the first one counts. -/
def gather {α : Type} (parts : List (Role × α)) : Slot → List α
  | single role => (parts.find? (·.1 == role)).toList.map (·.2)
  | repeated role => (parts.filter (·.1 == role)).map (·.2)
  | alternating first second =>
    interleave
      ((parts.filter (·.1 == first)).map (·.2))
      ((parts.filter (·.1 == second)).map (·.2))

/-- The slots that are left after a part in a role. -/
def advance : List Slot → Role → Option (List Slot)
  | [], _ => none
  | single role :: slots, next => if next = role then some slots else advance slots next
  | repeated role :: slots, next =>
    if next = role then some (repeated role :: slots) else advance slots next
  | alternating first second :: slots, next =>
    if next = first then some (alternating second first :: slots) else advance slots next

/-- The slots that are left after parts in some roles. -/
def advanceAll (slots : List Slot) (roles : List Role) : Option (List Slot) :=
  roles.foldlM advance slots

end Slot

namespace Kind

/-- The slots of each kind.  The flags of a procedure stand before a mark that follows them. -/
def slots : Kind → List Slot
  | procedureDeclaration =>
    Slot.ofFields [Role.once .keyword, Role.maybe .flags, Role.maybe .modifier, Role.once .name,
      Role.maybe .parameters, Role.once .semicolon, Role.maybe .declarations, Role.maybe .body,
      Role.maybe .ending, Role.maybe .closingName, Role.maybe .terminator]
  | kind => Slot.ofFields kind.fields

end Kind

namespace Tree

mutual

/-- The tokens of a part, read off its fields in the order of the grammar. -/
def reading : Tree → List Token
  | leaf _ lexeme => [lexeme.token]
  | missing _ => []
  | node _ kind _ children => (kind.slots.flatMap (Slot.gather (readings children))).flatten

/-- The roles of several parts, each with what is read off it. -/
def readings : List Tree → List (Role × List Token)
  | [] => []
  | tree :: rest => (tree.role, tree.reading) :: readings rest

end

mutual

/-- The children of all nodes follow the slots of the kind. -/
def Arranged : Tree → Prop
  | leaf _ _ => True
  | missing _ => True
  | node _ kind _ children =>
    (Slot.advanceAll kind.slots (children.map (·.role))).isSome ∧ AllArranged children

/-- All parts are arranged. -/
def AllArranged : List Tree → Prop
  | [] => True
  | tree :: rest => tree.Arranged ∧ AllArranged rest

end

end Tree

namespace Slot

section Interleave

variable {α : Type}

theorem interleave_nil_right (xs : List α) : interleave xs [] = xs := by
  cases xs with
  | nil => rfl
  | cons x xs => rfl

/-- The two lists change places after each element. -/
theorem interleave_cons
    (x : α)
    (xs ys : List α) :
    interleave (x :: xs) ys = x :: interleave ys xs := by
  induction xs generalizing x ys with
  | nil =>
    rw [interleave_nil_right]
    cases ys with
    | nil => rfl
    | cons y ys => rfl
  | cons a xs ih =>
    cases ys with
    | nil => rfl
    | cons y ys => rw [interleave, interleave, ih]

end Interleave

/-- Going on to a part in a role either uses up the first slot with that role, or takes turns. -/
theorem advance_cons
    {slot : Slot}
    {slots rest : List Slot}
    {next : Role}
    (h : advance (slot :: slots) next = some rest) :
    (slot = .single next ∧ rest = slots) ∨
    (slot = .repeated next ∧ rest = slot :: slots) ∨
    (∃ other, slot = .alternating next other ∧ rest = .alternating other next :: slots) ∨
    advance slots next = some rest := by
  cases slot with
  | single role =>
    rw [advance] at h
    split at h
    · rename_i same
      cases h
      exact .inl ⟨by rw [same], rfl⟩
    · exact .inr (.inr (.inr h))
  | repeated role =>
    rw [advance] at h
    split at h
    · rename_i same
      cases h
      exact .inr (.inl ⟨by rw [same], rfl⟩)
    · exact .inr (.inr (.inr h))
  | alternating first second =>
    rw [advance] at h
    split at h
    · rename_i same
      cases h
      exact .inr (.inr (.inl ⟨second, by rw [same], by rw [same]⟩))
    · exact .inr (.inr (.inr h))

/-- The role of the part and those of the slots that are left all occur in the slots. -/
theorem mem_roles_of_advance
    {slots rest : List Slot}
    {next role : Role}
    (h : advance slots next = some rest)
    (member : role = next ∨ role ∈ rest.flatMap roles) :
    role ∈ slots.flatMap roles := by
  induction slots with
  | nil => cases h
  | cons slot slots ih =>
    rcases advance_cons h with ⟨rfl, rfl⟩ | ⟨rfl, rfl⟩ | ⟨other, rfl, rfl⟩ | h
    · simpa [roles] using member
    · simpa [roles] using member
    · simp only [List.flatMap_cons, roles, List.mem_append, List.mem_cons, List.not_mem_nil,
        or_false] at member ⊢
      rcases member with same | (same | same) | inner
      · exact .inl (.inl same)
      · exact .inl (.inr same)
      · exact .inl (.inl same)
      · exact .inr inner
    · exact List.mem_append_right _ (ih h)

theorem mem_roles_of_advanceAll
    {slots : List Slot}
    {nexts : List Role}
    {role : Role}
    (h : (advanceAll slots nexts).isSome)
    (member : role ∈ nexts) :
    role ∈ slots.flatMap roles := by
  induction nexts generalizing slots with
  | nil => cases member
  | cons next nexts ih =>
    rw [advanceAll, List.foldlM_cons] at h
    cases stepped : advance slots next with
    | none => simp [stepped] at h
    | some rest =>
      simp only [stepped, Option.bind_eq_bind, Option.bind_some] at h
      rcases List.mem_cons.mp member with same | member
      · exact mem_roles_of_advance stepped (.inl same)
      · exact mem_roles_of_advance stepped (.inr (ih h member))

theorem nodup_of_advance
    {slots rest : List Slot}
    {next : Role}
    (distinct : (slots.flatMap roles).Nodup)
    (h : advance slots next = some rest) :
    (rest.flatMap roles).Nodup := by
  induction slots with
  | nil => cases h
  | cons slot slots ih =>
    rw [List.flatMap_cons] at distinct
    rcases advance_cons h with ⟨rfl, rfl⟩ | ⟨rfl, rfl⟩ | ⟨other, rfl, rfl⟩ | h
    · exact (List.nodup_append.mp distinct).2.1
    · exact distinct
    · refine (List.Perm.nodup_iff ?_).mp distinct
      exact List.Perm.append_right _ (List.Perm.swap other next [])
    · exact ih (List.nodup_append.mp distinct).2.1 h

section Gather

variable
  {α : Type}
  {parts : List (Role × α)}

theorem gather_eq_nil
    {slot : Slot}
    (absent : ∀ part ∈ parts, part.1 ∉ slot.roles) :
    slot.gather parts = [] := by
  have filtered : ∀ role ∈ slot.roles, parts.filter (·.1 == role) = [] := by
    intro role member
    rw [List.filter_eq_nil_iff]
    intro part among same
    rw [beq_iff_eq] at same
    exact absent part among (same ▸ member)
  cases slot with
  | single role =>
    have found : parts.find? (·.1 == role) = none := by
      rw [List.find?_eq_none]
      exact List.filter_eq_nil_iff.mp (filtered role List.mem_cons_self)
    simp [gather, found]
  | repeated role => simp [gather, filtered role List.mem_cons_self]
  | alternating first second =>
    simp [gather, filtered first List.mem_cons_self,
      filtered second (List.mem_cons_of_mem _ List.mem_cons_self), interleave]

theorem gather_cons_of_notMem
    {slot : Slot}
    {next : Role}
    (absent : next ∉ slot.roles)
    (x : α) :
    slot.gather ((next, x) :: parts) = slot.gather parts := by
  cases slot with
  | single role =>
    have other : (next == role) = false := by simpa [roles] using absent
    simp [gather, other]
  | repeated role =>
    have other : (next == role) = false := by simpa [roles] using absent
    simp [gather, other]
  | alternating first second =>
    have others : next ≠ first ∧ next ≠ second := by simpa [roles] using absent
    simp [gather, others]

/-- The first part comes first in the slots, and the other parts follow as in the slots that are
left. -/
theorem flatMap_gather_cons
    {slots rest : List Slot}
    {next : Role}
    (distinct : (slots.flatMap roles).Nodup)
    (h : advance slots next = some rest)
    (others : ∀ part ∈ parts, part.1 ∈ rest.flatMap roles)
    (x : α) :
    slots.flatMap (gather ((next, x) :: parts)) = x :: rest.flatMap (gather parts) := by
  induction slots with
  | nil => cases h
  | cons slot slots ih =>
    rw [List.flatMap_cons] at distinct
    rcases List.nodup_append.mp distinct with ⟨own, later, apart⟩
    have passed : next ∈ slot.roles →
        slots.flatMap (gather ((next, x) :: parts)) = slots.flatMap (gather parts) := by
      intro mine
      rw [List.flatMap_def, List.flatMap_def]
      refine congrArg List.flatten (List.map_congr_left ?_)
      intro slot' member
      refine gather_cons_of_notMem ?_ x
      intro theirs
      exact apart next mine next (List.mem_flatMap_of_mem member theirs) rfl
    rw [List.flatMap_cons]
    rcases advance_cons h with ⟨rfl, rfl⟩ | ⟨rfl, rfl⟩ | ⟨other, rfl, rfl⟩ | h
    · rw [passed List.mem_cons_self]
      simp [gather]
    · rw [passed List.mem_cons_self]
      simp [gather]
    · have different : (next == other) = false := by simpa [roles] using own
      rw [passed List.mem_cons_self, List.flatMap_cons]
      simp [gather, different, interleave_cons]
    · -- the first slot is skipped, and its roles do not occur in any part
      have skipped : slot.gather ((next, x) :: parts) = [] := by
        refine gather_eq_nil ?_
        intro part member mine
        refine apart part.1 mine part.1 ?_ rfl
        rcases List.mem_cons.mp member with rfl | member
        · exact mem_roles_of_advance h (.inl rfl)
        · exact mem_roles_of_advance h (.inr (others part member))
      rw [skipped, List.nil_append, ih later h]

/-- If the roles of the parts follow the slots, then the slots give the parts in order. -/
theorem flatMap_gather
    {slots : List Slot}
    (distinct : (slots.flatMap roles).Nodup)
    (h : (advanceAll slots (parts.map (·.1))).isSome) :
    slots.flatMap (gather parts) = parts.map (·.2) := by
  induction parts generalizing slots with
  | nil =>
    refine List.flatMap_eq_nil_iff.mpr ?_
    intro slot _
    exact gather_eq_nil (fun _ member => absurd member List.not_mem_nil)
  | cons part parts ih =>
    rw [List.map_cons, advanceAll, List.foldlM_cons] at h
    cases stepped : advance slots part.1 with
    | none => simp [stepped] at h
    | some rest =>
      simp only [stepped, Option.bind_eq_bind, Option.bind_some] at h
      rw [flatMap_gather_cons distinct stepped, ih (nodup_of_advance distinct stepped) h,
        List.map_cons]
      intro other member
      exact mem_roles_of_advanceAll h (List.mem_map_of_mem member)

end Gather

end Slot

/-- No role occurs twice in the slots of a kind. -/
theorem Kind.nodup_slots (kind : Kind) : (kind.slots.flatMap Slot.roles).Nodup := by
  cases kind <;> decide

namespace Tree

theorem map_role_readings (trees : List Tree) :
    (readings trees).map (·.1) = trees.map (·.role) := by
  induction trees with
  | nil => rfl
  | cons tree trees ih => rw [readings, List.map_cons, List.map_cons, ih]

mutual

/-- Reading an arranged tree by its fields gives its tokens. -/
theorem reading_eq_tokens : (tree : Tree) → tree.Arranged → tree.reading = tree.tokens
  | leaf _ _, _ => by simp [reading]
  | missing _, _ => by simp [reading]
  | node _ kind _ children, arranged => by
    have roles : (Slot.advanceAll kind.slots ((readings children).map (·.1))).isSome := by
      rw [map_role_readings]
      exact arranged.1
    rw [reading, Slot.flatMap_gather kind.nodup_slots roles, tokens_node]
    exact flatten_readings children arranged.2

theorem flatten_readings : (trees : List Tree) → AllArranged trees →
    ((readings trees).map (·.2)).flatten = tokensOf trees
  | [], _ => rfl
  | tree :: trees, arranged => by
    rw [readings, List.map_cons, List.flatten_cons, tokensOf_cons,
      reading_eq_tokens tree arranged.1, flatten_readings trees arranged.2]

end

end Tree

end Oberon
