import Oberon.Proofs.Levels
import Oberon.Proofs.Spans

/-!
# Where constructs come from

If only one production builds constructs of a kind, then every such construct in a tree was read by
that production, however deep it lies (`Production.Reads.stems`).  What is to be said of these
constructs can then be read off one derivation.

`Production.confines` checks that a production builds constructs of the kind only where it is the
one that does, and all productions of a grammar can be checked at once.  Assembling a construct
leaves its parts as they are but for their roles, and so a construct is known only up to its role.
-/

namespace Oberon

deriving instance DecidableEq for Production

namespace Tree

/-- A tree is another one or lies somewhere within it. -/
inductive Within : Tree → Tree → Prop
  | whole
      (tree : Tree) :
      Within tree tree
  | part
      {inner part : Tree}
      {role : Role}
      {kind : Kind}
      {span : Span}
      {children : List Tree}
      (member : part ∈ children)
      (inside : Within inner part) :
      Within inner (node role kind span children)

/-- A tree is, in some role, what a production reads at some place of a stream. -/
def StemsFrom (origin : Production .construct) (stream : TokenStream) (tree : Tree) : Prop :=
  ∃ budget index, ∃ cursor after : Cursor, ∃ read : Tree, cursor.At stream index ∧
    Production.Reads budget origin cursor read after ∧ tree = read.withRole tree.role

/-- All constructs of a kind within a tree stem from a production. -/
def Stems (kind : Kind) (origin : Production .construct) (stream : TokenStream) (tree : Tree) :
    Prop :=
  ∀ inner : Tree, inner.Within tree → inner.kind? = some kind → inner.StemsFrom origin stream

variable
  {kind other : Kind}
  {origin : Production .construct}
  {stream : TokenStream}
  {tree : Tree}
  {role : Role}
  {span : Span}
  {parts : List Tree}

theorem StemsFrom.withRole
    (h : tree.StemsFrom origin stream)
    (role : Role) :
    (tree.withRole role).StemsFrom origin stream := by
  obtain ⟨budget, index, cursor, after, read, place, reads, same⟩ := h
  refine ⟨budget, index, cursor, after, read, place, reads, ?_⟩
  rw [same]
  cases read <;> rfl

theorem stems_of_kind?_eq_none
    (bare : tree.kind? = none) :
    tree.Stems kind origin stream := by
  intro inner within found
  cases within with
  | whole => exact nomatch bare.symm.trans found
  | part => cases bare

theorem stems_node
    {children : List Tree}
    (own : other = kind → (node role other span children).StemsFrom origin stream)
    (each : ∀ part ∈ children, part.Stems kind origin stream) :
    (node role other span children).Stems kind origin stream := by
  intro inner within found
  cases within with
  | whole => exact own (Option.some.inj found)
  | part member inside => exact each _ member inner inside found

theorem Stems.children
    {children : List Tree}
    (h : (node role other span children).Stems kind origin stream) :
    ∀ part ∈ children, part.Stems kind origin stream :=
  fun _ member inner inside => h inner (.part member inside)

theorem Stems.withRole
    (h : tree.Stems kind origin stream)
    (role : Role) :
    (tree.withRole role).Stems kind origin stream := by
  cases tree with
  | leaf _ _ => exact stems_of_kind?_eq_none rfl
  | missing _ => exact stems_of_kind?_eq_none rfl
  | node before other span children =>
    refine stems_node ?_ h.children
    rintro rfl
    exact (h _ (.whole _) rfl).withRole role

theorem stems_unlessSingle
    (own : kind = other → (unlessSingle other span parts).StemsFrom origin stream)
    (each : ∀ part ∈ parts, part.Stems kind origin stream) :
    (unlessSingle other span parts).Stems kind origin stream := by
  fun_cases unlessSingle other span parts with
  | case1 => exact (each _ List.mem_cons_self).withRole .root
  | case2 _ several =>
    refine stems_node (fun same => ?_) each
    have whole := own same.symm
    rwa [unlessSingle] at whole
    exact several

theorem stems_chain
    {start : Nat}
    {left : Tree}
    (differs : kind ≠ other)
    (first : left.Stems kind origin stream)
    (each : ∀ part ∈ parts, part.Stems kind origin stream) :
    (chain other start left parts).Stems kind origin stream := by
  have own : ∀ {node : Tree}, other = kind → node.StemsFrom origin stream :=
    fun same => absurd same.symm differs
  fun_induction chain other start left parts with
  | case1 => exact first
  | case2 left last =>
    refine stems_node own ?_
    simp only [List.forall_mem_cons] at each ⊢
    exact ⟨first.withRole .lhs, each⟩
  | case3 left operator right rest ih =>
    simp only [List.forall_mem_cons] at each
    obtain ⟨operation, operand, others⟩ := each
    refine ih (stems_node own ?_) others
    simp only [List.forall_mem_cons]
    exact ⟨first.withRole .lhs, operation, operand.withRole .rhs, List.forall_mem_nil _⟩

theorem stems_indexList
    (nested : kind ≠ .expressionList)
    (own : kind = .indexList → (indexList span parts).StemsFrom origin stream)
    (each : ∀ part ∈ parts, part.Stems kind origin stream) :
    (indexList span parts).Stems kind origin stream := by
  have list : ∀ {tree : Tree}, kind = .expressionList → tree.StemsFrom origin stream :=
    fun same => absurd same nested
  revert own
  fun_cases indexList span parts with
  | case1 => exact fun _ => stems_unlessSingle list each
  | case2 => exact fun own => stems_node (fun same => own same.symm) each
  | case3 _ _ before _ left =>
    intro own
    refine stems_node (fun same => own same.symm) (List.forall_mem_cons.mpr ⟨?_, ?_⟩)
    · refine (stems_unlessSingle list fun part member => ?_).withRole .lhs
      exact each part ((List.takeWhile_prefix before).subset member)
    · exact fun part member => each part ((List.dropWhile_suffix before).subset member)

theorem stems_allocation
    (own : kind = .allocation ∨ kind = .literal →
      (allocation span parts).StemsFrom origin stream)
    (each : ∀ part ∈ parts, part.Stems kind origin stream) :
    (allocation span parts).Stems kind origin stream := by
  revert own
  fun_cases allocation span parts with
  | case1 _ lexeme =>
    intro own
    refine stems_node (fun same => own (.inr same.symm)) fun part member => ?_
    obtain rfl := List.mem_singleton.mp member
    exact stems_of_kind?_eq_none rfl
  | case2 => exact fun own => stems_node (fun same => own (.inl same.symm)) each

end Tree

namespace Assembly

/-- The kinds of the nodes that an assembly builds below another. -/
def nested : Assembly → List Kind
  | chain kind => [kind]
  | indexList => [.expressionList]
  | _ => []

end Assembly

namespace Tree

variable
  {kind : Kind}
  {origin : Production .construct}
  {stream : TokenStream}

/-- A construct stems from a production with all that is in it, if it does itself where it can be of
the kind. -/
theorem stems_assemble
    {assembly : Assembly}
    {span : Span}
    {parts : List Tree}
    (nested : kind ∉ assembly.nested)
    (own : kind ∈ assembly.nodes → (assemble assembly span parts).StemsFrom origin stream)
    (each : ∀ part ∈ parts, part.Stems kind origin stream) :
    (assemble assembly span parts).Stems kind origin stream := by
  cases assembly with
  | node other => exact stems_node (fun same => own (List.mem_singleton.mpr same.symm)) each
  | unlessSingle other =>
    exact stems_unlessSingle (fun same => own (List.mem_singleton.mpr same)) each
  | chain other =>
    have differs : kind ≠ other := fun same => nested (List.mem_singleton.mpr same)
    cases parts with
    | nil => exact stems_node (fun same => absurd same.symm differs) nofun
    | cons first rest =>
      obtain ⟨front, others⟩ := List.forall_mem_cons.mp each
      exact stems_chain differs (front.withRole .root) others
  | byRole role present absent =>
    refine stems_node (fun same => own ?_) each
    rw [← same]
    split
    · exact List.mem_cons_self
    · exact List.mem_cons_of_mem _ List.mem_cons_self
  | indexList =>
    refine stems_indexList (fun same => nested (List.mem_singleton.mpr same)) ?_ each
    exact fun same => own (same ▸ List.mem_cons_of_mem _ List.mem_cons_self)
  | allocation =>
    refine stems_allocation (fun same => own ?_) each
    simpa [Assembly.nodes] using same

/-- A record that takes an `END` back only makes a field and its type anew. -/
theorem stems_reclaimEnd?
    {parts reclaimed : List Tree}
    (h : reclaimEnd? parts = some reclaimed)
    (field : kind ≠ .variableDeclaration)
    (type : kind ≠ .objectType)
    (each : ∀ part ∈ parts, part.Stems kind origin stream) :
    ∀ part ∈ reclaimed, part.Stems kind origin stream := by
  obtain ⟨before, role, span, names, colon, object, bare, ending, rfl, released, rfl⟩ :=
    reclaimEnd?_eq_some h
  obtain ⟨role', span', inner', word, last, rfl, rfl, rfl⟩ := releaseEnd?_eq_some released
  simp only [List.forall_mem_append, List.forall_mem_cons] at each ⊢
  obtain ⟨front, own, gap, -⟩ := each
  have within := own.children
  simp only [List.forall_mem_cons] at within
  obtain ⟨named, marked, -, -⟩ := within
  refine ⟨front, stems_node (fun same => absurd same.symm field) ?_, gap,
    stems_of_kind?_eq_none rfl, nofun⟩
  simp only [List.forall_mem_cons]
  refine ⟨named, marked, stems_node (fun same => absurd same.symm type) ?_, nofun⟩
  simp only [List.forall_mem_cons]
  exact ⟨stems_of_kind?_eq_none rfl, nofun⟩

end Tree

namespace Production

/-- Checks that a production builds constructs of a kind only where it is a certain one. -/
def confines : {yield : Yield} → Production yield → Kind → Production .construct → Bool
  | _, .empty, _, _ => true
  | _, .token _ _ _, _, _ => true
  | _, .gap _, _, _ => true
  | _, .fail _, _, _ => true
  | _, .seq first second, kind, origin =>
    first.confines kind origin && second.confines kind origin
  | _, .branch _ first second, kind, origin =>
    first.confines kind origin && second.confines kind origin
  | _, .many _ item, kind, origin => item.confines kind origin
  | _, .tail _ _ _ _ exit item, kind, origin =>
    exit.confines kind origin && item.confines kind origin
  | _, .part _ construct, kind, origin => construct.confines kind origin
  | _, .assemble assembly parts, kind, origin =>
    parts.confines kind origin && !assembly.nested.contains kind &&
      (!assembly.nodes.contains kind || .assemble assembly parts == origin)
  | _, .deeper _, _, _ => true
  | _, .reclaim body closing, kind, origin =>
    body.confines kind origin && closing.confines kind origin &&
      kind != .variableDeclaration && kind != .objectType

/-- If all levels confine a kind to a production, then all constructs of that kind that are read
from a short text stem from it. -/
theorem Reads.stems
    {kind : Kind}
    {origin : Production .construct}
    {name : String}
    {text : List Char}
    {index : Nat}
    {budget : Nat}
    {yield : Yield}
    {production : Production yield}
    {cursor after : Cursor}
    {output : yield.Output}
    (short : text.length < wordCount)
    (levels : ∀ level : Level, level.production.confines kind origin = true)
    (h : Reads budget production cursor output after)
    (checked : production.confines kind origin = true)
    (place : cursor.At (.ofText name text) index) :
    ∀ tree ∈ Yield.trees output, tree.Stems kind origin (.ofText name text) := by
  induction h generalizing index with
  | empty => nofun
  | token => exact List.forall_mem_singleton.mpr (Tree.stems_of_kind?_eq_none rfl)
  | gap => exact List.forall_mem_singleton.mpr (Tree.stems_of_kind?_eq_none rfl)
  | seq front _ left right =>
    obtain ⟨first, second⟩ := Bool.and_eq_true_iff.mp checked
    exact List.forall_mem_append.mpr ⟨left first place, right second (front.at_after short place)⟩
  | first _ _ ih => exact ih (Bool.and_eq_true_iff.mp checked).1 place
  | second _ _ ih => exact ih (Bool.and_eq_true_iff.mp checked).2 place
  | manyStop => nofun
  | manyStep _ front _ _ head others =>
    exact List.forall_mem_append.mpr
      ⟨head checked place, others checked (front.at_after short place)⟩
  | manyStall _ _ _ ih => exact ih checked place
  | tailStop => nofun
  | tailStep _ front _ head others =>
    have next := place.passes short (.single ..)
    refine List.forall_mem_append.mpr
      ⟨List.forall_mem_cons.mpr ⟨Tree.stems_of_kind?_eq_none rfl, ?_⟩, ?_⟩
    · exact head (Bool.and_eq_true_iff.mp checked).2 next
    · exact others checked (front.at_after short next)
  | tailExit _ _ ih =>
    have next := place.passes short (.single ..)
    refine List.forall_mem_cons.mpr ⟨Tree.stems_of_kind?_eq_none rfl, ?_⟩
    exact ih (Bool.and_eq_true_iff.mp checked).1 next
  | part _ ih =>
    exact List.forall_mem_singleton.mpr ((ih checked place _ List.mem_cons_self).withRole _)
  | @assemble budget assembly parts cursor after trees inner ih =>
    simp only [confines, Bool.and_eq_true, Bool.not_eq_true', Bool.or_eq_true,
      List.contains_eq_mem, decide_eq_false_iff_not, beq_iff_eq] at checked
    obtain ⟨⟨below, nested⟩, origins⟩ := checked
    refine List.forall_mem_singleton.mpr (Tree.stems_assemble nested (fun among => ?_)
      (ih below place))
    -- the kind is among the nodes, so the production is the one that reads it
    have same := origins.resolve_left (not_not_intro among)
    have reads : Reads budget (.assemble assembly parts) cursor _ after := .assemble inner
    rw [same] at reads
    refine ⟨budget, index, cursor, after, _, place, reads, ?_⟩
    generalize Tree.assemble assembly (after.spanFrom cursor.start) trees = built
    cases built <;> rfl
  | @deeper _ level _ _ _ _ ih => exact ih (levels level) place
  | reclaimed _ _ handed ih =>
    simp only [confines, Bool.and_eq_true, bne_iff_ne] at checked
    obtain ⟨⟨⟨body, -⟩, field⟩, type⟩ := checked
    exact Tree.stems_reclaimEnd? handed field type (ih body place)
  | unclaimed front _ _ inner last =>
    simp only [confines, Bool.and_eq_true] at checked
    obtain ⟨⟨⟨body, closing⟩, -⟩, -⟩ := checked
    exact List.forall_mem_append.mpr ⟨inner body place, last closing (front.at_after short place)⟩

end Production

end Oberon
