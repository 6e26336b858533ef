import Oberon.Tree.Kind

/-!
# Items and joints in turn

The roles of the operands and operators of a chain, and those of the items and commas of a list,
take turns: an item, and then any number of joints with an item after each (`Role.Turns`).  To see
this of all the lists of roles that a production yields, the roles are read one by one, and a joint
between two items leaves a single item (`Role.join`).  What remains in the end tells how the roles
began: with items in turn (`Role.exists_turns`), or, if no item comes first, just as they are
(`Role.eq_of_foldl_join`).
-/

namespace Oberon.Role

/-- Any number of joints, each with an item after it. -/
inductive Turns (joint : Role) : List Role → Prop
  | nil :
      Turns joint []
  | cons
      {roles : List Role}
      (others : Turns joint roles) :
      Turns joint (joint :: .item :: roles)

theorem Turns.of_cons
    {joint role : Role}
    {roles : List Role}
    (h : Turns joint (role :: roles)) :
    role = joint ∧ ∃ rest, roles = .item :: rest ∧ Turns joint rest := by
  cases h with
  | cons others => exact ⟨rfl, _, rfl, others⟩

/-- Reads one more role.  An item after an item and a joint is taken together with them. -/
def join (joint : Role) (seen : List Role) (role : Role) : List Role :=
  if seen = [.item, joint] ∧ role = .item then [.item] else seen ++ [role]

variable {joint : Role}

/-- Apart from the beginning of an item and a joint, nothing is taken together. -/
theorem foldl_join_eq_append
    {seen : List Role}
    (other : ¬ seen <+: [.item, joint])
    (roles : List Role) :
    roles.foldl (join joint) seen = seen ++ roles := by
  induction roles generalizing seen with
  | nil => simp
  | cons role roles ih =>
    have apart : ¬ (seen = [.item, joint] ∧ role = .item) := by
      rintro ⟨rfl, -⟩
      exact other (List.prefix_refl _)
    have further : ¬ (seen ++ [role]) <+: [.item, joint] := by
      intro starts
      exact other ((List.prefix_append seen [role]).trans starts)
    rw [List.foldl_cons, join, if_neg apart, ih further]
    simp

/-- After an item, what remains apart from it comes after items in turn. -/
theorem exists_turns_of_item
    {later : List Role}
    (apart : later.head? ≠ some joint) :
    ∀ roles : List Role, roles.foldl (join joint) [.item] = .item :: later →
      ∃ turns, Turns joint turns ∧ roles = turns ++ later
  | [], read => ⟨[], .nil, by simpa using read⟩
  | [role], read => by
    have next : later = [role] := by simpa [join] using read.symm
    exact ⟨[], .nil, next.symm⟩
  | role :: next :: roles, read => by
    by_cases first : role = joint
    · by_cases second : next = .item
      · have others : roles.foldl (join joint) [.item] = .item :: later := by
          simpa [join, first, second] using read
        obtain ⟨turns, inTurn, same⟩ := exists_turns_of_item apart roles others
        rw [first, second, same]
        exact ⟨_, .cons inTurn, rfl⟩
      · have stuck : ¬ [.item, joint, next] <+: [.item, joint] := by simp
        have same : roles.foldl (join joint) [.item, joint, next] = .item :: later := by
          simpa [join, first, second] using read
        rw [foldl_join_eq_append stuck] at same
        rw [← (List.cons.inj same).2] at apart
        exact absurd rfl apart
    · have stuck : ¬ [.item, role] <+: [.item, joint] := by simpa using first
      have same : (next :: roles).foldl (join joint) [.item, role] = .item :: later := by
        simpa [join] using read
      rw [foldl_join_eq_append stuck] at same
      exact ⟨[], .nil, (List.cons.inj same).2⟩

/-- If an item remains in front, then the roles begin with items in turn. -/
theorem exists_turns
    {roles later : List Role}
    (read : roles.foldl (join joint) [] = .item :: later)
    (apart : later.head? ≠ some joint) :
    ∃ turns, Turns joint turns ∧ roles = .item :: turns ++ later := by
  cases roles with
  | nil => cases read
  | cons role roles =>
    have start : roles.foldl (join joint) [role] = .item :: later := by simpa [join] using read
    by_cases first : role = .item
    · subst first
      obtain ⟨turns, inTurn, rfl⟩ := exists_turns_of_item apart roles start
      exact ⟨turns, inTurn, rfl⟩
    · have stuck : ¬ [role] <+: [.item, joint] := by simpa using first
      rw [foldl_join_eq_append stuck] at start
      exact absurd (List.cons.inj start).1 first

/-- An item in front stays there. -/
theorem head?_foldl_join
    {seen : List Role}
    (first : seen.head? = some .item)
    (roles : List Role) :
    (roles.foldl (join joint) seen).head? = some .item := by
  induction roles generalizing seen with
  | nil => exact first
  | cons role roles ih =>
    refine ih ?_
    rw [join]
    split
    · rfl
    · obtain ⟨others, rfl⟩ := List.head?_eq_some_iff.mp first
      rfl

/-- If no item comes first, then nothing is taken together. -/
theorem eq_of_foldl_join
    {roles rest : List Role}
    (read : roles.foldl (join joint) [] = rest)
    (other : rest.head? ≠ some .item) :
    roles = rest := by
  cases roles with
  | nil => exact read
  | cons role roles =>
    have start : roles.foldl (join joint) [role] = rest := by simpa [join] using read
    by_cases first : role = .item
    · rw [first] at start
      rw [← start] at other
      exact absurd (head?_foldl_join rfl roles) other
    · have stuck : ¬ [role] <+: [.item, joint] := by simpa using first
      rw [foldl_join_eq_append stuck] at start
      exact start

/-- Items in turn are several if there is a joint. -/
theorem Turns.two_le
    {roles : List Role}
    (h : Turns joint roles)
    (several : roles ≠ []) :
    2 ≤ (.item :: roles).count .item := by
  cases h with
  | nil => exact absurd rfl several
  | @cons roles others =>
    rw [List.count_cons_self]
    have more : 0 < List.count .item (joint :: .item :: roles) :=
      List.count_pos_iff.mpr (List.mem_cons_of_mem _ List.mem_cons_self)
    omega

theorem Turns.of_mem
    {roles : List Role}
    {role : Role}
    (h : Turns joint roles)
    (member : role ∈ roles) :
    role = joint ∨ role = .item := by
  induction h with
  | nil => cases member
  | cons others ih =>
    rcases List.mem_cons.mp member with rfl | member
    · exact .inl rfl
    · rcases List.mem_cons.mp member with rfl | member
      · exact .inr rfl
      · exact ih member

/-- Items in turn are told apart from what comes after them. -/
theorem Turns.takeWhile_append
    {turns later : List Role}
    (test : Role → Bool)
    (h : Turns joint turns)
    (mine : ∀ role, role = joint ∨ role = .item → test role = true)
    (others : ∀ role ∈ later, test role = false) :
    (.item :: turns ++ later).takeWhile test = .item :: turns ∧
      (.item :: turns ++ later).dropWhile test = later := by
  have inside : ∀ role ∈ .item :: turns, test role = true := by
    intro role member
    rcases List.mem_cons.mp member with rfl | member
    · exact mine .item (.inr rfl)
    · exact mine role (h.of_mem member)
  rw [List.takeWhile_append_of_pos inside, List.dropWhile_append_of_pos inside]
  cases later with
  | nil => simp
  | cons role later =>
    have stops := others role List.mem_cons_self
    simp [stops]

end Oberon.Role
