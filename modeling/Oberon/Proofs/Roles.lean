import Oberon.Proofs.Consumption
import Oberon.Proofs.Fields

/-!
# The roles that a production yields

An automaton reads the roles of the parts that a production yields.  `Production.leads` computes
the states in which it can end, and `Production.Reads.mem_leads` says that no derivation leads
anywhere else.

With the slots of a kind as states this shows that every node the parser builds has its parts in
the order of its fields: `Production.shaped` checks it for a production, all productions of the
grammar pass, and so all trees are arranged (`Production.Reads.arranged`).
-/

namespace Oberon

namespace Yield

/-- The roles of the parts that a production yields. -/
def roles : {yield : Yield} → yield.Output → List Role
  | construct, _ => []
  | parts, trees => trees.map (·.role)

end Yield

namespace Tree

/-- An `END` that was released has come out of an object type, of which only the word `OBJECT` is
left. -/
theorem releaseEnd?_eq_some
    {tree object ending : Tree}
    (h : tree.releaseEnd? = some (object, ending)) :
    ∃ role span inner word last,
      tree = node role .objectType span
        [leaf .keyword word, node .declarations .declarations inner [], leaf .ending last] ∧
      object = node role .objectType word.token.span [leaf .keyword word] ∧
      ending = leaf .ending last := by
  unfold releaseEnd? at h
  split at h
  · rename_i role span word inner last
    cases h
    exact ⟨role, span, inner, word, last, rfl, rfl, rfl⟩
  · cases h

/-- A record that takes an `END` back has a last field without a semicolon, which is of an object
type that holds nothing else. -/
theorem reclaimEnd?_eq_some
    {parts reclaimed : List Tree}
    (h : reclaimEnd? parts = some reclaimed) :
    ∃ before role span names colon type object ending,
      parts = before ++
        [node role .variableDeclaration span [names, colon, type], missing .semicolon] ∧
      type.releaseEnd? = some (object, ending) ∧
      reclaimed = before ++
        [node role .variableDeclaration ⟨span.start, object.stopOr span.stop⟩
          [names, colon, object], missing .semicolon, ending] := by
  unfold reclaimEnd? at h
  split at h
  · rename_i field before reversed
    rcases Option.map_eq_some_iff.mp h with ⟨⟨released, ending⟩, taken, rfl⟩
    unfold releaseFieldEnd? at taken
    split at taken
    · rename_i role span names colon type
      rcases Option.map_eq_some_iff.mp taken with ⟨⟨object, last⟩, inner, same⟩
      cases same
      refine ⟨before.reverse, role, span, names, colon, type, object, ending, ?_, inner, ?_⟩
      · rw [← parts.reverse_reverse, reversed]
        simp
      · simp
    · cases taken
  · cases h

/-- The `END` that is taken back comes after all other parts. -/
theorem map_role_reclaimEnd?
    {parts reclaimed : List Tree}
    (h : reclaimEnd? parts = some reclaimed) :
    reclaimed.map (·.role) = parts.map (·.role) ++ [.ending] := by
  rcases reclaimEnd?_eq_some h with ⟨before, role, span, names, colon, type, object, ending, rfl,
    released, rfl⟩
  rcases releaseEnd?_eq_some released with ⟨_, _, _, _, _, rfl, rfl, rfl⟩
  simp [Tree.role]

end Tree

section Settle

variable {σ : Type} [DecidableEq σ]

/-- Adds states until no new ones come, for a number of rounds at most. -/
def settle (grow : List σ → Option (List σ)) : (rounds : Nat) → List σ → Option (List σ)
  | 0, _ => none
  | rounds + 1, states =>
    (grow states).bind fun more =>
      if ∀ state ∈ more, state ∈ states then some states
      else settle grow rounds (states ++ more).eraseDups

/-- States that have settled contain those at the beginning and grow no more. -/
theorem settle_eq_some
    {grow : List σ → Option (List σ)}
    {rounds : Nat}
    {states ends : List σ}
    (h : settle grow rounds states = some ends) :
    (∀ state ∈ states, state ∈ ends) ∧
      ∃ more, grow ends = some more ∧ ∀ state ∈ more, state ∈ ends := by
  induction rounds generalizing states with
  | zero => cases h
  | succ rounds ih =>
    rcases Option.bind_eq_some_iff.mp h with ⟨more, grown, h⟩
    split at h
    · rename_i settled
      cases h
      exact ⟨fun _ member => member, more, grown, settled⟩
    · rcases ih h with ⟨contained, settled⟩
      refine ⟨?_, settled⟩
      intro state member
      exact contained state (List.mem_eraseDups.mpr (List.mem_append_left _ member))

/-- Settled states settle at once. -/
theorem settle_of_settled
    (grow : List σ → Option (List σ))
    {more ends : List σ}
    (grown : grow ends = some more)
    (settled : ∀ state ∈ more, state ∈ ends)
    (rounds : Nat) :
    settle grow (rounds + 1) ends = some ends := by
  rw [settle, grown, Option.bind_some, if_pos settled]

end Settle

namespace Production

section Leads

variable {σ : Type} [DecidableEq σ] (step : σ → Role → σ)

/-- The states after the parts of a production, from some states before them. -/
def leads : {yield : Yield} → Production yield → List σ → Option (List σ)
  | _, .empty, states => some states
  | _, .token role _ _, states => some (states.map (step · role))
  | _, .gap role, states => some (states.map (step · role))
  | _, .fail _, _ => some []
  | _, .seq first second, states => (leads first states).bind fun states => leads second states
  | _, .branch _ first second, states =>
    (leads first states).bind fun left =>
      (leads second states).map fun right => (left ++ right).eraseDups
  | _, .many _ item, states => settle (fun states => leads item states) 4 states
  | _, .tail _ role stops exitRole exit item, states =>
    (settle (fun states => leads item (states.map (step · role))) 4 states).bind fun states =>
      -- without a symbol to stop at there is no way to the exit
      if stops = [] then some states
      else (leads exit (states.map (step · exitRole))).map fun last => (states ++ last).eraseDups
  | _, .part role _, states => some (states.map (step · role))
  | _, .assemble _ _, states => some states
  | _, .deeper _, states => some states
  | _, .reclaim body closing, states =>
    (leads body states).bind fun states =>
      (leads closing states).map fun last => (states.map (step · .ending) ++ last).eraseDups

variable {step}

/-- A derivation leads from a state to one of those that were computed. -/
theorem Reads.mem_leads
    {budget : Nat}
    {yield : Yield}
    {production : Production yield}
    {cursor after : Cursor}
    {output : yield.Output}
    (h : Reads budget production cursor output after)
    {states ends : List σ}
    (found : production.leads step states = some ends)
    {state : σ}
    (member : state ∈ states) :
    (Yield.roles output).foldl step state ∈ ends := by
  induction h generalizing states ends state with
  | empty =>
    cases found
    exact member
  | token =>
    cases found
    exact List.mem_map_of_mem member
  | gap =>
    cases found
    exact List.mem_map_of_mem member
  | seq _ _ left right =>
    rcases Option.bind_eq_some_iff.mp found with ⟨between, first, second⟩
    simp only [Yield.roles, List.map_append, List.foldl_append] at left right ⊢
    exact right second (left first member)
  | first _ _ ih =>
    rcases Option.bind_eq_some_iff.mp found with ⟨lefts, first, others⟩
    rcases Option.map_eq_some_iff.mp others with ⟨rights, second, rfl⟩
    exact List.mem_eraseDups.mpr (List.mem_append_left _ (ih first member))
  | second _ _ ih =>
    rcases Option.bind_eq_some_iff.mp found with ⟨lefts, first, others⟩
    rcases Option.map_eq_some_iff.mp others with ⟨rights, second, rfl⟩
    exact List.mem_eraseDups.mpr (List.mem_append_right _ (ih second member))
  | manyStop => exact (settle_eq_some found).1 state member
  | manyStep _ _ _ _ head others =>
    rcases settle_eq_some found with ⟨contained, more, grown, settled⟩
    simp only [Yield.roles, List.map_append, List.foldl_append] at head others ⊢
    exact others (settle_of_settled _ grown settled 3)
      (settled _ (head grown (contained state member)))
  | manyStall _ _ _ ih =>
    rcases settle_eq_some found with ⟨contained, more, grown, settled⟩
    exact settled _ (ih grown (contained state member))
  | tailStop =>
    rcases Option.bind_eq_some_iff.mp found with ⟨loops, loop, last⟩
    have stays := (settle_eq_some loop).1 state member
    split at last
    · cases last
      exact stays
    · rcases Option.map_eq_some_iff.mp last with ⟨exits, exited, rfl⟩
      exact List.mem_eraseDups.mpr (List.mem_append_left _ stays)
  | @tailStep _ role _ _ _ item _ _ _ _ _ _ _ _ _ _ _ head others =>
    rcases Option.bind_eq_some_iff.mp found with ⟨loops, loop, last⟩
    rcases settle_eq_some loop with ⟨contained, more, grown, settled⟩
    have again := settle_of_settled (fun states => leads step item (states.map (step · role)))
      grown settled 3
    simp only [Yield.roles, List.map_append, List.map_cons, List.foldl_append, List.foldl_cons]
      at head others ⊢
    refine others ?_ (settled _ (head grown (List.mem_map_of_mem (contained state member))))
    rw [leads, again]
    exact last
  | @tailExit _ _ exitRole stops _ _ _ _ _ _ _ _ chosen _ ih =>
    rcases Option.bind_eq_some_iff.mp found with ⟨loops, loop, last⟩
    have several : stops ≠ [] := List.ne_nil_of_mem chosen
    rw [if_neg several] at last
    rcases Option.map_eq_some_iff.mp last with ⟨exits, exited, rfl⟩
    have entered : step state exitRole ∈ loops.map (step · exitRole) :=
      List.mem_map_of_mem ((settle_eq_some loop).1 state member)
    exact List.mem_eraseDups.mpr (List.mem_append_right _ (ih exited entered))
  | part =>
    cases found
    simpa [Yield.roles] using List.mem_map_of_mem member
  | assemble =>
    cases found
    exact member
  | deeper _ =>
    cases found
    exact member
  | reclaimed _ _ handed ih =>
    rcases Option.bind_eq_some_iff.mp found with ⟨between, body, others⟩
    rcases Option.map_eq_some_iff.mp others with ⟨lasts, closing, rfl⟩
    refine List.mem_eraseDups.mpr (List.mem_append_left _ ?_)
    simp only [Yield.roles, Tree.map_role_reclaimEnd? handed, List.foldl_append] at ih ⊢
    exact List.mem_map_of_mem (ih body member)
  | unclaimed _ _ _ inner last =>
    rcases Option.bind_eq_some_iff.mp found with ⟨between, body, others⟩
    rcases Option.map_eq_some_iff.mp others with ⟨lasts, closing, rfl⟩
    refine List.mem_eraseDups.mpr (List.mem_append_right _ ?_)
    simp only [Yield.roles, List.map_append, List.foldl_append] at inner last ⊢
    exact last closing (inner body member)

end Leads

end Production

/-- The order in which an assembly takes its parts, depending on whether a role occurs. -/
structure Order where
  key : Role
  present : List Slot
  absent : List Slot

namespace Order

/-- The order of the parts of one kind. -/
def ofKind (kind : Kind) : Order := ⟨.root, kind.slots, kind.slots⟩

/-- The slots for parts in some roles. -/
def slots (order : Order) (roles : List Role) : List Slot :=
  if order.key ∈ roles then order.present else order.absent

/-- The roles come in order. -/
def Admits (order : Order) (roles : List Role) : Prop :=
  (Slot.advanceAll (order.slots roles) roles).isSome

/-- What is known of the roles that were read: whether the key is among them, and what is left of
the slots in either case. -/
abbrev Track := Bool × Option (List Slot) × Option (List Slot)

/-- Nothing has been read. -/
def track (order : Order) : Track := (false, some order.present, some order.absent)

/-- Reads one more role. -/
def step (key : Role) (track : Track) (role : Role) : Track :=
  (track.1 || decide (key = role), track.2.1.bind (Slot.advance · role),
    track.2.2.bind (Slot.advance · role))

/-- True if the roles that were read came in order. -/
def fits (track : Track) : Bool := if track.1 then track.2.1.isSome else track.2.2.isSome

theorem foldl_step
    (key : Role)
    (roles : List Role)
    (seen : Bool)
    (present absent : Option (List Slot)) :
    roles.foldl (step key) (seen, present, absent) =
      (seen || decide (key ∈ roles), present.bind (Slot.advanceAll · roles),
        absent.bind (Slot.advanceAll · roles)) := by
  induction roles generalizing seen present absent with
  | nil => simp [Slot.advanceAll]
  | cons role roles ih =>
    rw [List.foldl_cons, step, ih]
    have follow : ∀ slots : Option (List Slot),
        (slots.bind (Slot.advance · role)).bind (Slot.advanceAll · roles) =
          slots.bind (Slot.advanceAll · (role :: roles)) := by
      intro slots
      cases slots with
      | none => rfl
      | some slots => simp [Slot.advanceAll]
    rw [follow, follow]
    simp [Bool.or_assoc]

/-- Reading the roles one by one decides whether they come in order. -/
theorem admits_of_fits
    {order : Order}
    {roles : List Role}
    (h : fits (roles.foldl (step order.key) order.track) = true) :
    order.Admits roles := by
  rw [track, foldl_step] at h
  rw [Admits, slots]
  split
  · rename_i occurs
    simpa [fits, occurs] using h
  · rename_i missing
    simpa [fits, missing] using h

theorem Admits.of_mem
    {order : Order}
    {roles : List Role}
    (h : order.Admits roles)
    (occurs : order.key ∈ roles) :
    (Slot.advanceAll order.present roles).isSome := by
  rwa [Admits, slots, if_pos occurs] at h

theorem Admits.of_notMem
    {order : Order}
    {roles : List Role}
    (h : order.Admits roles)
    (missing : order.key ∉ roles) :
    (Slot.advanceAll order.absent roles).isSome := by
  rwa [Admits, slots, if_neg missing] at h

/-- If the key makes no difference, then there is one order. -/
theorem Admits.of_same
    {order : Order}
    {roles : List Role}
    (h : order.Admits roles)
    (same : order.present = order.absent) :
    (Slot.advanceAll order.present roles).isSome := by
  by_cases occurs : order.key ∈ roles
  · exact h.of_mem occurs
  · rw [same]
    exact h.of_notMem occurs

end Order

namespace Assembly

/-- The order in which an assembly takes its parts. -/
def order : Assembly → Order
  | node kind => .ofKind kind
  | unlessSingle kind => .ofKind kind
  | chain _ => ⟨.root, [.alternating .item .operator], [.alternating .item .operator]⟩
  | byRole role present absent => ⟨role, present.slots, absent.slots⟩
  | indexList =>
    ⟨.question,
      .alternating .item .separator :: [.single .firstComma, .single .question,
        .single .secondComma, .single .rhs],
      [.alternating .item .separator]⟩
  | allocation => .ofKind .allocation

/-- A chain has operands on both sides of an operator. -/
def sound : Assembly → Bool
  | chain kind => kind.slots == [.single .lhs, .single .operator, .single .rhs]
  | _ => true

end Assembly

/-- Parts that take turns begin with the one whose turn it is. -/
theorem Slot.advanceAll_alternating_cons
    {first second role : Role}
    {roles : List Role}
    (h : (advanceAll [.alternating first second] (role :: roles)).isSome) :
    role = first ∧ (advanceAll [.alternating second first] roles).isSome := by
  rw [advanceAll, List.foldlM_cons, advance] at h
  split at h
  · rename_i same
    exact ⟨same, h⟩
  · cases h

/-- A slot may stay empty. -/
theorem Slot.advanceAll_single_cons
    {role : Role}
    {slots : List Slot}
    {roles : List Role}
    (apart : role ∉ roles)
    (h : (advanceAll slots roles).isSome) :
    (advanceAll (.single role :: slots) roles).isSome := by
  cases roles with
  | nil => rfl
  | cons next roles =>
    have other : ¬ next = role := fun same => apart (same ▸ List.mem_cons_self)
    rwa [advanceAll, List.foldlM_cons, advance, if_neg other]

/-- Parts that take turns and then others are told apart by their roles. -/
theorem Slot.advanceAll_alternating
    {first second : Role}
    {slots : List Slot}
    {roles : List Role}
    (turns : Role → Bool)
    (mine : ∀ role, turns role = true ↔ role = first ∨ role = second)
    (apart : ∀ role ∈ slots.flatMap Slot.roles, turns role = false)
    (h : (advanceAll (.alternating first second :: slots) roles).isSome) :
    (advanceAll [.alternating first second] (roles.takeWhile turns)).isSome ∧
      (advanceAll slots (roles.dropWhile turns)).isSome := by
  induction roles generalizing first second with
  | nil => exact ⟨rfl, rfl⟩
  | cons role roles ih =>
    rw [advanceAll, List.foldlM_cons, advance] at h
    split at h
    · rename_i same
      have turn : turns role = true := (mine role).mpr (.inl same)
      have swapped : ∀ role, turns role = true ↔ role = second ∨ role = first := by
        intro role
        rw [mine, Or.comm]
      rw [List.takeWhile_cons_of_pos turn, List.dropWhile_cons_of_pos turn, advanceAll,
        List.foldlM_cons, advance, if_pos same]
      exact ih swapped h
    · have later : role ∈ slots.flatMap Slot.roles := by
        cases stepped : advance slots role with
        | none => simp [stepped] at h
        | some rest => exact mem_roles_of_advance stepped (.inl rfl)
      have other : ¬ turns role = true := by simp [apart role later]
      rw [List.takeWhile_cons_of_neg other, List.dropWhile_cons_of_neg other]
      exact ⟨rfl, h⟩

namespace Tree

theorem allArranged_append
    {front back : List Tree} :
    AllArranged (front ++ back) ↔ AllArranged front ∧ AllArranged back := by
  induction front with
  | nil => simp [AllArranged]
  | cons tree front ih => simp [AllArranged, ih, and_assoc]

theorem arranged_withRole
    {tree : Tree}
    {role : Role}
    (h : tree.Arranged) :
    (tree.withRole role).Arranged := by
  cases tree with
  | leaf _ _ => trivial
  | missing _ => trivial
  | node _ kind span children => exact h

theorem arranged_node
    {role : Role}
    {kind : Kind}
    {span : Span}
    {children : List Tree}
    (roles : (Slot.advanceAll kind.slots (children.map (·.role))).isSome)
    (inner : AllArranged children) :
    (node role kind span children).Arranged :=
  ⟨roles, inner⟩

theorem arranged_unlessSingle
    {kind : Kind}
    {span : Span}
    {parts : List Tree}
    (roles : (Slot.advanceAll kind.slots (parts.map (·.role))).isSome)
    (inner : AllArranged parts) :
    (unlessSingle kind span parts).Arranged := by
  fun_cases unlessSingle kind span parts with
  | case1 _ inside innerSpan children => exact inner.1
  | case2 => exact arranged_node roles inner

/-- Operands and operators that take turns become nodes with two operands each. -/
theorem arranged_chain
    {kind : Kind}
    {start : Nat}
    {left : Tree}
    {parts : List Tree}
    (slots : kind.slots = [.single .lhs, .single .operator, .single .rhs])
    (roles : (Slot.advanceAll [.alternating .operator .item] (parts.map (·.role))).isSome)
    (first : left.Arranged)
    (inner : AllArranged parts) :
    (chain kind start left parts).Arranged := by
  fun_induction chain kind start left parts with
  | case1 => exact first
  | case2 left last =>
    have operator := (Slot.advanceAll_alternating_cons roles).1
    refine arranged_node ?_ ⟨arranged_withRole first, inner.1, trivial⟩
    simp [slots, operator, Slot.advanceAll, Slot.advance]
  | case3 left operator right rest ih =>
    rcases Slot.advanceAll_alternating_cons roles with ⟨operation, roles⟩
    rcases Slot.advanceAll_alternating_cons roles with ⟨-, roles⟩
    refine ih roles ?_ inner.2.2
    refine arranged_node ?_
      ⟨arranged_withRole first, inner.1, arranged_withRole inner.2.1, trivial⟩
    simp [slots, operation, Slot.advanceAll, Slot.advance]

/-- Items and commas come before the `?`, and everything else from there on. -/
theorem roles_before_question
    {parts : List Tree}
    {question : Tree}
    (found : parts.find? (·.role == .question) = some question)
    (roles : Assembly.indexList.order.Admits (parts.map (·.role))) :
    (Slot.advanceAll [.alternating .item .separator]
      ((parts.takeWhile fun part => part.role == .item || part.role == .separator).map
        (·.role))).isSome ∧
    (Slot.advanceAll [.single .firstComma, .single .question, .single .secondComma, .single .rhs]
      ((parts.dropWhile fun part => part.role == .item || part.role == .separator).map
        (·.role))).isSome := by
  have occurs : Role.question ∈ parts.map (·.role) := by
    have same := List.find?_some found
    rw [beq_iff_eq] at same
    rw [← same]
    exact List.mem_map_of_mem (List.mem_of_find?_eq_some found)
  have parted := Slot.advanceAll_alternating (fun role => role == .item || role == .separator)
    (by simp) (by decide) (roles.of_mem occurs)
  rwa [List.takeWhile_map, List.dropWhile_map] at parted

/-- The items before the `?` become one part. -/
theorem arranged_indexList
    {span : Span}
    {parts : List Tree}
    (roles : Assembly.indexList.order.Admits (parts.map (·.role)))
    (inner : AllArranged parts) :
    (indexList span parts).Arranged := by
  fun_cases indexList span parts with
  | case1 nowhere =>
    refine arranged_unlessSingle (roles.of_notMem ?_) inner
    simpa [Assembly.order] using nowhere
  | case2 question found before none =>
    rcases roles_before_question found roles with ⟨-, later⟩
    have all : parts.dropWhile before = parts := by
      have whole : parts.takeWhile before ++ parts.dropWhile before = parts :=
        List.takeWhile_append_dropWhile
      rwa [none, List.nil_append] at whole
    rw [all] at later
    refine arranged_node (Slot.advanceAll_single_cons ?_ later) inner
    intro left
    have slot := Slot.mem_roles_of_advanceAll later left
    revert slot
    decide
  | case3 question found before several left =>
    rcases roles_before_question found roles with ⟨items, later⟩
    rw [← List.takeWhile_append_dropWhile (p := before) (l := parts)] at inner
    rw [allArranged_append] at inner
    have arranged : left.Arranged := arranged_unlessSingle items inner.1
    refine arranged_node ?_ ⟨arranged_withRole arranged, inner.2⟩
    rw [List.map_cons, role_withRole]
    exact later

theorem arranged_allocation
    {span : Span}
    {parts : List Tree}
    (roles : (Slot.advanceAll Kind.allocation.slots (parts.map (·.role))).isSome)
    (inner : AllArranged parts) :
    (allocation span parts).Arranged := by
  fun_cases allocation span parts with
  | case1 _ lexeme => exact arranged_node rfl ⟨trivial, trivial⟩
  | case2 => exact arranged_node roles inner

/-- A construct whose parts come in order is arranged. -/
theorem arranged_assemble
    {assembly : Assembly}
    {span : Span}
    {parts : List Tree}
    (sound : assembly.sound = true)
    (roles : assembly.order.Admits (parts.map (·.role)))
    (inner : AllArranged parts) :
    (assemble assembly span parts).Arranged := by
  cases assembly with
  | node kind => exact arranged_node (roles.of_same rfl) inner
  | unlessSingle kind => exact arranged_unlessSingle (roles.of_same rfl) inner
  | chain kind =>
    cases parts with
    | nil => exact arranged_node rfl trivial
    | cons first rest =>
      exact arranged_chain (beq_iff_eq.mp sound)
        (Slot.advanceAll_alternating_cons (roles.of_same rfl)).2 (arranged_withRole inner.1) inner.2
  | byRole role present absent =>
    refine arranged_node ?_ inner
    split
    · rename_i found
      exact roles.of_mem (by simpa [Assembly.order] using found)
    · rename_i nowhere
      exact roles.of_notMem (by simpa [Assembly.order] using nowhere)
  | indexList => exact arranged_indexList roles inner
  | allocation => exact arranged_allocation (roles.of_same rfl) inner

theorem arranged_reclaimEnd?
    {parts reclaimed : List Tree}
    (h : reclaimEnd? parts = some reclaimed)
    (inner : AllArranged parts) :
    AllArranged reclaimed := by
  rcases reclaimEnd?_eq_some h with ⟨before, role, span, names, colon, type, object, ending, rfl,
    released, rfl⟩
  rcases releaseEnd?_eq_some released with ⟨_, _, _, _, _, rfl, rfl, rfl⟩
  rcases allArranged_append.mp inner with ⟨front, ⟨roles, first, second, -, -⟩, -, -⟩
  refine allArranged_append.mpr ⟨front, ⟨roles, first, second, ?_, trivial⟩, trivial, trivial,
    trivial⟩
  exact arranged_node rfl ⟨trivial, trivial⟩

end Tree

namespace Production

/-- Checks that the parts of every construct come in the order of its assembly. -/
def shaped : {yield : Yield} → Production yield → Bool
  | _, .empty => true
  | _, .token _ _ _ => true
  | _, .gap _ => true
  | _, .fail _ => true
  | _, .seq first second => first.shaped && second.shaped
  | _, .branch _ first second => first.shaped && second.shaped
  | _, .many _ item => item.shaped
  | _, .tail _ _ _ _ exit item => exit.shaped && item.shaped
  | _, .part _ construct => construct.shaped
  | _, .assemble assembly parts =>
    parts.shaped && assembly.sound &&
      ((parts.leads (Order.step assembly.order.key) [assembly.order.track]).any fun ends =>
        ends.all Order.fits)
  | _, .deeper _ => true
  | _, .reclaim body closing => body.shaped && closing.shaped

end Production

namespace Level

/-- All levels. -/
def all : List Level := [factor, statement, type, declarations]

theorem mem_all (level : Level) : level ∈ all := by
  cases level <;> decide

/-- The parts of the constructs of every level come in order. -/
theorem shaped_production (level : Level) : level.production.shaped = true := by
  cases level <;> decide +kernel

end Level

namespace Rule

/-- All rules. -/
def all : List Rule :=
  [expression, rangeExpression, simpleExpression, term, factor, unaryExpression, primaryExpression,
    selectors, indexList, expressionList, array, set, flags, flag, statementSequence, statement,
    ifStatement, whileStatement, repeatStatement, forStatement, loopStatement, withStatement,
    withBranch, caseStatement, caseBranch, simpleStatement, inlineAssembler, assemblerBlock,
    statementBlock, moduleUnit, templateParameters, templateParameter, importList, importItem,
    declarationSequence, constantSection, constantDeclaration, typeSection, typeDeclaration,
    variableSection, variableDeclaration, variableNames, variableName, procedureDeclaration,
    operatorDeclaration, formalParameters, parameterGroup, parameter, body, identifierDefinition,
    qualifiedIdentifier, typeSpec, arrayType, mathArrayType, mathArraySize, recordType, pointerType,
    procedureType, objectType, enumerationType, enumerationValue, cellType, portList,
    portDeclaration, portType]

theorem mem_all (rule : Rule) : rule ∈ all := by
  cases rule <;> decide

/-- The parts of every rule come in order. -/
theorem shaped_production (rule : Rule) : rule.production.shaped = true := by
  -- one check for all rules, which have most of their productions in common
  have every : ∀ rule ∈ all, rule.production.shaped = true := by decide +kernel
  exact every rule rule.mem_all

end Rule

/-- What is yielded for a production whose parts come in order is arranged. -/
theorem Production.Reads.arranged
    {budget : Nat}
    {yield : Yield}
    {production : Production yield}
    {cursor after : Cursor}
    {output : yield.Output}
    (h : Reads budget production cursor output after)
    (shape : production.shaped = true) :
    Tree.AllArranged (Yield.trees output) := by
  induction h with
  | empty => trivial
  | token => exact ⟨trivial, trivial⟩
  | gap => exact ⟨trivial, trivial⟩
  | seq _ _ left right =>
    rcases Bool.and_eq_true_iff.mp shape with ⟨first, second⟩
    exact Tree.allArranged_append.mpr ⟨left first, right second⟩
  | first _ _ ih => exact ih (Bool.and_eq_true_iff.mp shape).1
  | second _ _ ih => exact ih (Bool.and_eq_true_iff.mp shape).2
  | manyStop => trivial
  | manyStep _ _ _ _ head others =>
    exact Tree.allArranged_append.mpr ⟨head shape, others shape⟩
  | manyStall _ _ _ ih => exact ih shape
  | tailStop => trivial
  | tailStep _ _ _ head others =>
    rcases Bool.and_eq_true_iff.mp shape with ⟨exit, item⟩
    exact ⟨trivial, Tree.allArranged_append.mpr ⟨head item, others shape⟩⟩
  | tailExit _ _ ih => exact ⟨trivial, ih (Bool.and_eq_true_iff.mp shape).1⟩
  | part _ ih => exact ⟨Tree.arranged_withRole (ih shape).1, trivial⟩
  | @assemble _ assembly parts _ _ trees inner ih =>
    simp only [shaped, Bool.and_eq_true] at shape
    rcases shape with ⟨⟨below, sound⟩, ends⟩
    refine ⟨Tree.arranged_assemble sound (Order.admits_of_fits ?_) (ih below), trivial⟩
    rcases (Option.any_eq_true _ _).mp ends with ⟨states, led, fits⟩
    exact List.all_eq_true.mp fits _ (inner.mem_leads led List.mem_cons_self)
  | @deeper _ level _ _ _ _ ih => exact ih level.shaped_production
  | reclaimed _ _ handed ih =>
    exact Tree.arranged_reclaimEnd? handed (ih (Bool.and_eq_true_iff.mp shape).1)
  | unclaimed _ _ _ inner last =>
    rcases Bool.and_eq_true_iff.mp shape with ⟨body, closing⟩
    exact Tree.allArranged_append.mpr ⟨inner body, last closing⟩

end Oberon
