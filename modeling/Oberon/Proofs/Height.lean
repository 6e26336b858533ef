import Oberon.Proofs.Levels
import Oberon.Proofs.Lossless

/-!
# The height of trees

Operators that associate to the left are read in a loop, and the limit of nesting does not count
them.  `Tree.rise` is the height of a tree without them: a construct that is the left operand of one
of its own kind adds nothing to it.

Apart from the four levels that are counted, productions are finite terms.  `Production.depth` is
the number of constructs that are nested in such a term, and `Level.depth` the greatest of those
numbers for the levels, so that every level that is left adds at most as much to the rise of a tree
(`Production.Reads.rise_le`).  The rise of a whole module is at most a number that only depends on
the limit of nesting (`Source.parse_rise_le`).
-/

namespace Oberon

namespace Tree

/-- Whether a part is the left operand of a construct of the same kind. -/
def prolongs (outer : Kind) (tree : Tree) : Bool :=
  tree.role == .lhs && tree.kind? == some outer

mutual

/-- The length of the longest chain of nested constructs, where operators in a row count once. -/
def rise : Tree → Nat
  | leaf _ _ => 0
  | missing _ => 0
  | node _ kind _ children => riseOf kind children + 1

/-- The greatest rise among several parts of a construct of a kind, without the part that only
goes on with the operators of the construct. -/
def riseOf (outer : Kind) : List Tree → Nat
  | [] => 0
  | tree :: rest => max (tree.rise - (tree.prolongs outer).toNat) (riseOf outer rest)

end

variable {bound : Nat}

theorem riseOf_le_iff
    {outer : Kind}
    {trees : List Tree} :
    riseOf outer trees ≤ bound ↔
      ∀ tree ∈ trees, tree.rise - (tree.prolongs outer).toNat ≤ bound := by
  induction trees with
  | nil => simp [riseOf]
  | cons tree rest ih => rw [riseOf, Nat.max_le, ih, List.forall_mem_cons]

@[simp] theorem rise_withRole
    (role : Role)
    (tree : Tree) :
    (tree.withRole role).rise = tree.rise := by
  cases tree <;> simp [withRole, rise]

/-- A node rises by one above its parts. -/
theorem rise_node_le
    {role : Role}
    {kind : Kind}
    {span : Span}
    {parts : List Tree}
    (each : ∀ part ∈ parts, part.rise ≤ bound) :
    (node role kind span parts).rise ≤ bound + 1 := by
  refine Nat.succ_le_succ (riseOf_le_iff.mpr fun part member => ?_)
  exact Nat.le_trans (Nat.sub_le _ _) (each part member)

theorem rise_unlessSingle_le
    {kind : Kind}
    {span : Span}
    {parts : List Tree}
    (each : ∀ part ∈ parts, part.rise ≤ bound) :
    (unlessSingle kind span parts).rise ≤ bound + 1 := by
  fun_cases unlessSingle kind span parts with
  | case1 role inner innerSpan children =>
    have only := each _ List.mem_cons_self
    rw [rise] at only ⊢
    exact Nat.le_succ_of_le only
  | case2 => exact rise_node_le each

/-- An operand on the left that is joined to operators already rises no further. -/
theorem rise_join_le
    {kind : Kind}
    {span : Span}
    {left : Tree}
    {parts : List Tree}
    (first : left.rise ≤ bound ∨ left.kind? = some kind ∧ left.rise ≤ bound + 1)
    (each : ∀ part ∈ parts, part.rise ≤ bound) :
    (node .root kind span (left.withRole .lhs :: parts)).rise ≤ bound + 1 := by
  refine Nat.succ_le_succ (riseOf_le_iff.mpr ?_)
  rw [List.forall_mem_cons]
  refine ⟨?_, fun part member => Nat.le_trans (Nat.sub_le _ _) (each part member)⟩
  rw [rise_withRole]
  rcases first with low | ⟨same, high⟩
  · exact Nat.le_trans (Nat.sub_le _ _) low
  · have joined : (left.withRole .lhs).prolongs kind = true := by
      simp [prolongs, same]
    rw [joined]
    exact Nat.sub_le_of_le_add high

/-- Any number of operators that are joined to the left rise as much as one. -/
theorem rise_chain_le
    {kind : Kind}
    {start : Nat}
    {left : Tree}
    {parts : List Tree}
    (first : left.rise ≤ bound ∨ left.kind? = some kind ∧ left.rise ≤ bound + 1)
    (each : ∀ part ∈ parts, part.rise ≤ bound) :
    (chain kind start left parts).rise ≤ bound + 1 := by
  fun_induction chain kind start left parts with
  | case1 =>
    rcases first with low | ⟨-, high⟩
    · exact Nat.le_succ_of_le low
    · exact high
  | case2 left last => exact rise_join_le first each
  | case3 left operator right rest ih =>
    simp only [List.forall_mem_cons] at each
    refine ih (.inr ⟨rfl, rise_join_le first ?_⟩) each.2.2
    simpa using ⟨each.1, each.2.1⟩

/-- The items before a `?` are nested once more if there are several. -/
theorem rise_indexList_le
    {span : Span}
    {parts : List Tree}
    (each : ∀ part ∈ parts, part.rise ≤ bound) :
    (indexList span parts).rise ≤ bound + 2 := by
  fun_cases indexList span parts with
  | case1 => exact Nat.le_succ_of_le (rise_unlessSingle_le each)
  | case2 => exact Nat.le_succ_of_le (rise_node_le each)
  | case3 question found before several left =>
    refine rise_node_le fun part member => ?_
    rcases List.mem_cons.mp member with rfl | later
    · rw [rise_withRole]
      exact rise_unlessSingle_le fun part member => each part (List.takeWhile_subset _ member)
    · exact Nat.le_succ_of_le (each part ((List.dropWhile_suffix _).subset later))

theorem rise_allocation_le
    {span : Span}
    {parts : List Tree}
    (each : ∀ part ∈ parts, part.rise ≤ bound) :
    (allocation span parts).rise ≤ bound + 1 := by
  fun_cases allocation span parts with
  | case1 => exact rise_node_le (by simp [rise])
  | case2 => exact rise_node_le each

end Tree

namespace Assembly

/-- How many constructs an assembly nests. -/
def depth : Assembly → Nat
  | indexList => 2
  | _ => 1

end Assembly

theorem Tree.rise_assemble_le
    {bound : Nat}
    {parts : List Tree}
    (each : ∀ part ∈ parts, part.rise ≤ bound)
    (assembly : Assembly)
    (span : Span) :
    (assemble assembly span parts).rise ≤ bound + assembly.depth := by
  cases assembly with
  | node kind => exact rise_node_le each
  | unlessSingle kind => exact rise_unlessSingle_le each
  | chain kind =>
    cases parts with
    | nil => exact rise_node_le nofun
    | cons first rest =>
      rw [List.forall_mem_cons] at each
      rw [← rise_withRole .root first] at each
      exact rise_chain_le (.inl each.1) each.2
  | byRole role present absent => exact rise_node_le each
  | indexList => exact rise_indexList_le each
  | allocation => exact rise_allocation_le each

/-- A declaration with an object type that holds nothing rises no further than one with an empty
object type. -/
theorem Tree.rise_reclaimed_le
    {role : Role}
    {span span' : Span}
    {names colon type object ending : Tree}
    (released : type.releaseEnd? = some (object, ending)) :
    (node role .variableDeclaration span [names, colon, object]).rise ≤
      (node role .variableDeclaration span' [names, colon, type]).rise := by
  obtain ⟨_, _, _, _, _, full, bare, -⟩ := releaseEnd?_eq_some released
  have lower : object.rise ≤ type.rise := by
    rw [bare, full]
    exact Nat.succ_le_succ (Nat.zero_le _)
  have same : object.prolongs .variableDeclaration = type.prolongs .variableDeclaration := by
    rw [bare, full]
    rfl
  have parts := riseOf_le_iff.mp (Nat.le_refl (riseOf .variableDeclaration [names, colon, type]))
  refine Nat.succ_le_succ (riseOf_le_iff.mpr ?_)
  simp only [List.forall_mem_cons, List.not_mem_nil, false_imp_iff, implies_true, and_true,
    same] at parts ⊢
  exact ⟨parts.1, parts.2.1, Nat.le_trans (Nat.sub_le_sub_right lower _) parts.2.2⟩

theorem Tree.rise_reclaimEnd?_le
    {bound : Nat}
    {parts reclaimed : List Tree}
    (h : reclaimEnd? parts = some reclaimed)
    (each : ∀ part ∈ parts, part.rise ≤ bound) :
    ∀ part ∈ reclaimed, part.rise ≤ bound := by
  obtain ⟨before, role, span, names, colon, type, object, ending, rfl, released, rfl⟩ :=
    reclaimEnd?_eq_some h
  obtain ⟨_, _, _, _, last, -, -, leaf⟩ := releaseEnd?_eq_some released
  simp only [List.forall_mem_append, List.forall_mem_cons, List.not_mem_nil, false_imp_iff,
    implies_true, and_true] at each ⊢
  refine ⟨each.1, Nat.le_trans (rise_reclaimed_le released) each.2.1, Nat.zero_le _, ?_⟩
  rw [leaf]
  exact Nat.zero_le _

namespace Production

/-- How many constructs are nested in a production, without those of the levels that it refers
to. -/
def depth : {yield : Yield} → Production yield → Nat
  | _, .empty => 0
  | _, .token _ _ _ => 0
  | _, .gap _ => 0
  | _, .fail _ => 0
  | _, .seq first second => max first.depth second.depth
  | _, .branch _ first second => max first.depth second.depth
  | _, .many _ item => item.depth
  | _, .tail _ _ _ _ exit item => max exit.depth item.depth
  | _, .part _ construct => construct.depth
  | _, .assemble assembly parts => parts.depth + assembly.depth
  | _, .deeper _ => 0
  | _, .reclaim body closing => max body.depth closing.depth

end Production

namespace Level

/-- The greatest number of constructs that a level nests, without those of deeper levels. -/
def depth : Nat := [factor, statement, type, declarations].foldr (max ·.production.depth) 0

theorem depth_production_le (level : Level) : level.production.depth ≤ depth := by
  cases level <;> decide +kernel

end Level

/-- What is read rises by the depth of the production, and by that of a level for every level that
is left. -/
theorem Production.Reads.rise_le
    {budget : Nat}
    {yield : Yield}
    {production : Production yield}
    {cursor after : Cursor}
    {output : yield.Output}
    (h : Reads budget production cursor output after) :
    ∀ tree ∈ Yield.trees output, tree.rise ≤ production.depth + Level.depth * budget := by
  have below : ∀ {bound more rest : Nat} {tree : Tree},
      tree.rise ≤ bound + rest → bound ≤ more → tree.rise ≤ more + rest :=
    fun bounded grows => Nat.le_trans bounded (Nat.add_le_add_right grows _)
  induction h with
  | empty => nofun
  | token => simp [Yield.trees, Tree.rise]
  | gap => simp [Yield.trees, Tree.rise]
  | seq _ _ left right =>
    intro tree member
    rcases List.mem_append.mp member with before | after
    · exact below (left tree before) (Nat.le_max_left _ _)
    · exact below (right tree after) (Nat.le_max_right _ _)
  | first _ _ ih => exact fun tree member => below (ih tree member) (Nat.le_max_left _ _)
  | second _ _ ih => exact fun tree member => below (ih tree member) (Nat.le_max_right _ _)
  | manyStop => nofun
  | manyStep _ _ _ _ head others =>
    intro tree member
    rcases List.mem_append.mp member with before | after
    · exact head tree before
    · exact others tree after
  | manyStall _ _ _ ih => exact ih
  | tailStop => nofun
  | tailStep _ _ _ head others =>
    intro tree member
    rcases List.mem_cons.mp member with rfl | member
    · exact Nat.zero_le _
    · rcases List.mem_append.mp member with before | after
      · exact below (head tree before) (Nat.le_max_right _ _)
      · exact others tree after
  | tailExit _ _ ih =>
    intro tree member
    rcases List.mem_cons.mp member with rfl | after
    · exact Nat.zero_le _
    · exact below (ih tree after) (Nat.le_max_left _ _)
  | part _ ih =>
    intro part member
    obtain rfl := List.mem_singleton.mp member
    rw [Tree.rise_withRole]
    exact ih _ List.mem_cons_self
  | @assemble _ assembly _ _ _ _ _ ih =>
    intro tree member
    obtain rfl := List.mem_singleton.mp member
    rw [depth, Nat.add_right_comm]
    exact Tree.rise_assemble_le ih assembly _
  | @deeper budget level _ _ _ _ ih =>
    intro tree member
    have inner := below (ih tree member) level.depth_production_le
    rwa [depth, Nat.zero_add, Nat.mul_succ, Nat.add_comm]
  | reclaimed _ _ handed ih =>
    intro tree member
    exact below (Tree.rise_reclaimEnd?_le handed ih tree member) (Nat.le_max_left _ _)
  | unclaimed _ _ _ inner last =>
    intro tree member
    rcases List.mem_append.mp member with before | after
    · exact below (inner tree before) (Nat.le_max_left _ _)
    · exact below (last tree after) (Nat.le_max_right _ _)

/-- The rise of a tree is bounded by the levels that were left when it was parsed. -/
theorem Rule.rise_le
    {rule : Rule}
    {budget : Nat}
    {cursor after : Cursor}
    {tree : Tree}
    (parsed : rule.parseWithin budget cursor = .ok tree after) :
    tree.rise ≤ rule.production.depth + Level.depth * budget :=
  (Production.run_eq_ok_iff.mp parsed).rise_le tree List.mem_cons_self

/-- Apart from operators that associate to the left, the limit of nesting bounds the height of every
module. -/
theorem Source.parse_rise_le
    {source : Source}
    {tree : Tree}
    (accepted : (Parsed.ofSource source).result = .ok tree) :
    tree.rise ≤ 8 + 11 * maxNesting := by
  obtain ⟨after, parsed, -⟩ := Parsed.exists_of_result_eq_ok accepted
  have bounded := Rule.rise_le parsed
  have module : Rule.moduleUnit.production.depth = 8 := by decide +kernel
  have level : Level.depth = 11 := by decide +kernel
  rwa [module, level] at bounded

/-- The theorem applies to a sum of three numbers, where the inner sum does not count. -/
theorem Source.parse_rise_le_sum :
    ∃ tree,
      (Parsed.ofSource (.ofText "M" "MODULE M; CONST a = 1+1+1; END M.")).result = .ok tree ∧
        tree.rise + 1 = tree.height ∧ tree.rise ≤ 8 + 11 * maxNesting := by
  have measured :
      (Parsed.ofSource (.ofText "M" "MODULE M; CONST a = 1+1+1; END M.")).result.toOption.map
        (fun tree => decide (tree.rise + 1 = tree.height)) = some true := by
    decide +kernel
  cases accepted :
      (Parsed.ofSource (.ofText "M" "MODULE M; CONST a = 1+1+1; END M.")).result with
  | error violation =>
    rw [accepted] at measured
    cases measured
  | ok tree =>
    rw [accepted] at measured
    exact ⟨tree, rfl, of_decide_eq_true (Option.some.inj measured), Source.parse_rise_le accepted⟩

end Oberon
