import Oberon.Proofs.Place
import Oberon.Proofs.Roles

/-!
# The tree loses nothing

Whatever rule is parsed from whatever place of a stream: reading the tree by its fields gives the
tokens between the two places of the cursor, each once and in order, and all names, literals and
assembler texts carry the characters of their own token (`Source.parse_lossless`).

The order of the fields comes from `Production.Reads.arranged`.  For the texts, `Production.textual`
checks that tokens are given a name's role, or become a literal, only if their symbol has a text;
only the word `NEW` is respelled, when it stands for a name.
-/

namespace Oberon

namespace Role

/-- True of the roles in which a token is a name. -/
def isName : Role → Bool
  | name | closingName | member | context | imported => true
  | _ => false

end Role

namespace Kind

/-- True of the kinds that carry the text of their token. -/
def isText : Kind → Bool
  | literal | assemblerBlock => true
  | _ => false

end Kind

namespace Tree

/-- The lexeme of a token. -/
def lexeme? : Tree → Option Lexeme
  | leaf _ lexeme => some lexeme
  | _ => none

mutual

/-- The names, literals and assembler texts of a part, each with its token and text. -/
def texts : Tree → List Lexeme
  | leaf role lexeme => if role.isName then [lexeme] else []
  | missing _ => []
  | node _ kind _ children =>
    (if kind.isText then children.filterMap lexeme? else []) ++ textsOf children

/-- The names, literals and assembler texts of several parts. -/
def textsOf : List Tree → List Lexeme
  | [] => []
  | tree :: rest => tree.texts ++ textsOf rest

end

theorem textsOf_append
    (front back : List Tree) :
    textsOf (front ++ back) = textsOf front ++ textsOf back := by
  induction front with
  | nil => rfl
  | cons tree front ih => simp [textsOf, ih]

/-- A construct has the same texts in every role. -/
theorem texts_withRole_node
    (role : Role)
    {tree : Tree}
    (h : tree.kind?.isSome) :
    (tree.withRole role).texts = tree.texts := by
  cases tree with
  | leaf _ _ => cases h
  | missing _ => cases h
  | node _ kind span children => simp only [withRole, texts]

/-- In a role that is not one of a name, a part has no more texts than before. -/
theorem texts_withRole_subset
    {role : Role}
    (plain : role.isName = false)
    (tree : Tree) :
    (tree.withRole role).texts ⊆ tree.texts := by
  cases tree with
  | leaf _ _ => simp [withRole, texts, plain]
  | missing _ => simp [withRole, texts]
  | node _ kind span children =>
    rw [texts_withRole_node role rfl]
    exact List.Subset.refl _

theorem texts_node_of_not_isText
    {kind : Kind}
    (plain : kind.isText = false)
    (role : Role)
    (span : Span)
    (children : List Tree) :
    (node role kind span children).texts = textsOf children := by
  simp [texts, plain]

theorem texts_unlessSingle_subset
    {kind : Kind}
    (plain : kind.isText = false)
    (span : Span)
    (parts : List Tree) :
    (unlessSingle kind span parts).texts ⊆ textsOf parts := by
  fun_cases unlessSingle kind span parts with
  | case1 role inner innerSpan children => simp [textsOf, texts]
  | case2 =>
    rw [texts_node_of_not_isText plain]
    exact List.Subset.refl _

theorem texts_chain_subset
    {kind : Kind}
    (plain : kind.isText = false)
    (start : Nat)
    (left : Tree)
    (parts : List Tree) :
    (chain kind start left parts).texts ⊆ left.texts ++ textsOf parts := by
  fun_induction chain kind start left parts with
  | case1 left => exact List.subset_append_left _ _
  | case2 left last =>
    rw [texts_node_of_not_isText plain, textsOf]
    refine List.append_subset.mpr ⟨?_, ?_⟩
    · exact List.Subset.trans (texts_withRole_subset rfl left) (List.subset_append_left _ _)
    · exact List.subset_append_right _ _
  | case3 left operator right rest ih =>
    refine List.Subset.trans ih ?_
    intro lexeme member
    simp only [texts_node_of_not_isText plain, textsOf, List.mem_append, List.append_nil]
      at member ⊢
    rcases member with (first | second | third) | others
    · exact .inl (texts_withRole_subset rfl left first)
    · exact .inr (.inl second)
    · exact .inr (.inr (.inl (texts_withRole_subset rfl right third)))
    · exact .inr (.inr (.inr others))

theorem texts_indexList_subset
    (span : Span)
    (parts : List Tree) :
    (indexList span parts).texts ⊆ textsOf parts := by
  fun_cases indexList span parts with
  | case1 => exact texts_unlessSingle_subset rfl span parts
  | case2 =>
    rw [texts_node_of_not_isText rfl]
    exact List.Subset.refl _
  | case3 question _ before _ =>
    rename_i left
    have parted : textsOf parts =
        textsOf (parts.takeWhile before) ++ textsOf (parts.dropWhile before) := by
      rw [← textsOf_append, List.takeWhile_append_dropWhile]
    rw [texts_node_of_not_isText rfl, textsOf, parted]
    refine List.append_subset.mpr ⟨?_, List.subset_append_right _ _⟩
    refine List.Subset.trans ?_ (List.subset_append_left _ _)
    exact List.Subset.trans (texts_withRole_subset rfl left)
      (texts_unlessSingle_subset rfl _ _)

/-- A record that takes an `END` back has no more texts than before. -/
theorem textsOf_reclaimEnd?_subset
    {parts reclaimed : List Tree}
    (h : reclaimEnd? parts = some reclaimed) :
    textsOf reclaimed ⊆ textsOf parts := by
  rcases reclaimEnd?_eq_some h with ⟨before, role, span, names, colon, type, object, ending, rfl,
    released, rfl⟩
  rcases releaseEnd?_eq_some released with ⟨_, _, _, _, _, rfl, rfl, rfl⟩
  simp [textsOf_append, textsOf, texts, Kind.isText, Role.isName]

end Tree

namespace Production

/-- True of a production that yields a single token with a text. -/
def isToken : {yield : Yield} → Production yield → Bool
  | _, .seq (.token _ symbols _) .empty => symbols.all Symbol.hasText
  | _, _ => false

/-- True of a production that starts with a token without a text. -/
def startsPlain : {yield : Yield} → Production yield → Bool
  | _, .seq (.token _ symbols _) _ => symbols.all fun symbol => !symbol.hasText
  | _, _ => false

/-- True of a production that yields a node. -/
def isNode : {yield : Yield} → Production yield → Bool
  | _, .assemble (.node _) _ => true
  | _, _ => false

/-- Checks an assembly and its parts: literals and assembler texts are made of tokens with a text,
and the word `NEW` has none. -/
def literal (assembly : Assembly) (parts : Production .parts) : Bool :=
  match assembly with
  | .node kind => !kind.isText || parts.isToken
  | .unlessSingle kind => !kind.isText
  | .chain kind => !kind.isText
  | .byRole _ present absent => !present.isText && !absent.isText
  | .indexList => true
  | .allocation => parts.startsPlain

/-- Checks that all names, literals and assembler texts are made of tokens with a text. -/
def textual : {yield : Yield} → Production yield → Bool
  | _, .empty => true
  | _, .token role symbols _ => !role.isName || symbols.all Symbol.hasText
  | _, .gap _ => true
  | _, .fail _ => true
  | _, .seq first second => first.textual && second.textual
  | _, .branch _ first second => first.textual && second.textual
  | _, .many _ item => item.textual
  | _, .tail _ role _ exitRole exit item =>
    !role.isName && !exitRole.isName && (exit.textual && item.textual)
  | _, .part role construct => (!role.isName || construct.isNode) && construct.textual
  | _, .assemble assembly parts => literal assembly parts && parts.textual
  | _, .deeper _ => true
  | _, .reclaim body closing => body.textual && closing.textual

end Production

theorem Level.textual_production (level : Level) : level.production.textual = true := by
  cases level <;> decide +kernel

theorem Rule.textual_production (rule : Rule) : rule.production.textual = true := by
  cases rule <;> decide +kernel

theorem Lexeme.spelled_of_hasText
    {lexeme : Lexeme}
    (h : lexeme.symbol.hasText = true) :
    lexeme.spelled = lexeme := by
  simp [spelled, spelling, h]

namespace Production.Reads

variable
  {budget : Nat}
  {cursor after : Cursor}

theorem exists_of_isToken
    {parts : Production .parts}
    {trees : List Tree}
    (h : Reads budget parts cursor trees after)
    (token : parts.isToken = true) :
    ∃ role lexeme, trees = [.leaf role lexeme] ∧ lexeme ∈ cursor.rest ∧
      lexeme.symbol.hasText = true := by
  unfold isToken at token
  split at token
  · cases h with
    | seq left right =>
      cases left with
      | token fits =>
        cases right with
        | empty => exact ⟨_, _, rfl, List.mem_cons_self, List.all_eq_true.mp token _ fits⟩
  · cases token

theorem exists_of_startsPlain
    {parts : Production .parts}
    {trees : List Tree}
    (h : Reads budget parts cursor trees after)
    (plain : parts.startsPlain = true) :
    ∃ role lexeme others, trees = .leaf role lexeme :: others ∧ lexeme ∈ cursor.rest ∧
      lexeme.symbol.hasText = false := by
  unfold startsPlain at plain
  split at plain
  · cases h with
    | seq left right =>
      cases left with
      | token fits =>
        refine ⟨_, _, _, rfl, List.mem_cons_self, ?_⟩
        simpa using List.all_eq_true.mp plain _ fits
  · cases plain

theorem isSome_kind?
    {construct : Production .construct}
    {tree : Tree}
    (h : Reads budget construct cursor tree after)
    (node : construct.isNode = true) :
    tree.kind?.isSome := by
  unfold isNode at node
  split at node
  · cases h
    rfl
  · cases node

/-- The texts of a construct are those of its parts, or the spelling of its only token. -/
theorem mem_texts_assemble
    {assembly : Assembly}
    {parts : Production .parts}
    {trees : List Tree}
    {span : Span}
    {lexeme : Lexeme}
    (h : Reads budget parts cursor trees after)
    (checked : literal assembly parts = true)
    (member : lexeme ∈ (Tree.assemble assembly span trees).texts) :
    lexeme ∈ Tree.textsOf trees ∨ ∃ original ∈ cursor.rest, lexeme = original.spelled := by
  cases assembly with
  | node kind =>
    simp only [literal, Bool.or_eq_true, Bool.not_eq_true'] at checked
    rcases checked with plain | token
    · left
      rwa [Tree.assemble, Tree.texts_node_of_not_isText plain] at member
    · rcases h.exists_of_isToken token with ⟨role, original, rfl, among, text⟩
      rw [Tree.assemble, Tree.texts, List.mem_append] at member
      rcases member with own | below
      · refine .inr ⟨original, among, ?_⟩
        rw [Lexeme.spelled_of_hasText text]
        split at own
        · simpa [Tree.lexeme?] using own
        · cases own
      · exact .inl below
  | unlessSingle kind =>
    exact .inl (Tree.texts_unlessSingle_subset (by simpa [literal] using checked) _ _ member)
  | chain kind =>
    have plain : kind.isText = false := by simpa [literal] using checked
    left
    cases trees with
    | nil => rwa [Tree.assemble, Tree.texts_node_of_not_isText plain] at member
    | cons first rest =>
      rw [Tree.textsOf, List.mem_append]
      rcases List.mem_append.mp (Tree.texts_chain_subset plain _ _ _ member) with own | others
      · exact .inl (Tree.texts_withRole_subset rfl first own)
      · exact .inr others
  | byRole role present absent =>
    have plain : present.isText = false ∧ absent.isText = false := by
      simpa [literal] using checked
    left
    rw [Tree.assemble, Tree.texts_node_of_not_isText] at member
    · exact member
    · split
      · exact plain.1
      · exact plain.2
  | indexList => exact .inl (Tree.texts_indexList_subset _ _ member)
  | allocation =>
    rcases h.exists_of_startsPlain checked with ⟨role, original, others, rfl, among, plain⟩
    cases others with
    | nil =>
      refine .inr ⟨original, among, ?_⟩
      simpa [Tree.assemble, Tree.allocation, Tree.texts, Tree.textsOf, Tree.lexeme?, Kind.isText,
        Role.isName, Lexeme.spelled, Lexeme.spelling, plain] using member
    | cons second others =>
      left
      rwa [Tree.assemble, Tree.allocation, Tree.texts_node_of_not_isText rfl] at member
      simp

/-- The names, literals and assembler texts of what is yielded are lexemes that were read, as they
are spelled. -/
theorem exists_of_mem_texts
    {yield : Yield}
    {production : Production yield}
    {output : yield.Output}
    (h : Reads budget production cursor output after)
    (checked : production.textual = true)
    {lexeme : Lexeme}
    (member : lexeme ∈ Tree.textsOf (Yield.trees output)) :
    ∃ original ∈ cursor.rest, lexeme = original.spelled := by
  induction h with
  | empty => cases member
  | @token _ role symbols _ original _ _ _ fits =>
    refine ⟨original, List.mem_cons_self, ?_⟩
    simp only [textual, Bool.or_eq_true, Bool.not_eq_true'] at checked
    rcases checked with plain | text
    · simp [Tree.textsOf, Tree.texts, plain] at member
    · rw [Lexeme.spelled_of_hasText (List.all_eq_true.mp text _ fits)]
      simp only [Yield.trees_parts, Tree.textsOf, Tree.texts, List.append_nil] at member
      split at member
      · exact List.mem_singleton.mp member
      · cases member
  | gap => simp [Tree.textsOf, Tree.texts] at member
  | seq first _ left right =>
    rcases Bool.and_eq_true_iff.mp checked with ⟨checked, checked'⟩
    rw [Yield.trees_parts, Tree.textsOf_append] at member
    rcases List.mem_append.mp member with member | member
    · exact left checked member
    · rcases right checked' member with ⟨original, among, same⟩
      exact ⟨original, first.suffix.subset among, same⟩
  | first _ _ ih => exact ih (Bool.and_eq_true_iff.mp checked).1 member
  | second _ _ ih => exact ih (Bool.and_eq_true_iff.mp checked).2 member
  | manyStop => cases member
  | manyStep _ first _ _ head others =>
    rw [Yield.trees_parts, Tree.textsOf_append] at member
    rcases List.mem_append.mp member with member | member
    · exact head checked member
    · rcases others checked member with ⟨original, among, same⟩
      exact ⟨original, first.suffix.subset among, same⟩
  | manyStall _ _ _ ih => exact ih checked member
  | tailStop => cases member
  | tailStep _ first _ head others =>
    have whole := checked
    simp only [textual, Bool.and_eq_true, Bool.not_eq_true'] at checked
    rcases checked with ⟨⟨plain, -⟩, -, item⟩
    simp only [Yield.trees_parts, List.cons_append, Tree.textsOf, Tree.texts, plain,
      Bool.false_eq_true, if_false, List.nil_append, Tree.textsOf_append, List.mem_append] at member
    rcases member with member | member
    · rcases head item member with ⟨original, among, same⟩
      exact ⟨original, List.mem_cons_of_mem _ among, same⟩
    · rcases others whole member with ⟨original, among, same⟩
      exact ⟨original, List.mem_cons_of_mem _ (first.suffix.subset among), same⟩
  | tailExit _ _ ih =>
    simp only [textual, Bool.and_eq_true, Bool.not_eq_true'] at checked
    rcases checked with ⟨⟨-, plain⟩, exit, -⟩
    simp only [Yield.trees_parts, Tree.textsOf, Tree.texts, plain, Bool.false_eq_true, if_false,
      List.nil_append] at member
    rcases ih exit member with ⟨original, among, same⟩
    exact ⟨original, List.mem_cons_of_mem _ among, same⟩
  | @part _ role construct _ _ tree inner ih =>
    simp only [textual, Bool.and_eq_true, Bool.or_eq_true, Bool.not_eq_true'] at checked
    rcases checked with ⟨plain | node, checked⟩
    · simp only [Yield.trees_parts, Yield.trees_construct, Tree.textsOf, List.append_nil]
        at ih member
      exact ih checked (Tree.texts_withRole_subset plain tree member)
    · simp only [Yield.trees_parts, Yield.trees_construct, Tree.textsOf, List.append_nil,
        Tree.texts_withRole_node role (inner.isSome_kind? node)] at ih member
      exact ih checked member
  | assemble inner ih =>
    rcases Bool.and_eq_true_iff.mp checked with ⟨shape, checked⟩
    simp only [Yield.trees_construct, Tree.textsOf, List.append_nil] at member
    rcases inner.mem_texts_assemble shape member with member | found
    · exact ih checked member
    · exact found
  | @deeper _ level _ _ _ _ ih => exact ih level.textual_production member
  | reclaimed _ _ handed ih =>
    exact ih (Bool.and_eq_true_iff.mp checked).1 (Tree.textsOf_reclaimEnd?_subset handed member)
  | unclaimed first _ _ inner last =>
    rcases Bool.and_eq_true_iff.mp checked with ⟨checked, checked'⟩
    rw [Yield.trees_parts, Tree.textsOf_append] at member
    rcases List.mem_append.mp member with member | member
    · exact inner checked member
    · rcases last checked' member with ⟨original, among, same⟩
      exact ⟨original, first.suffix.subset among, same⟩

end Production.Reads

/-- In a short text, a lexeme as it is spelled has the characters of its token as its text. -/
theorem TokenStream.text_spelled
    {name : String}
    {text : List Char}
    {lexeme : Lexeme}
    (short : text.length < wordCount)
    (member : lexeme ∈ (TokenStream.ofText name text).lexemes)
    (inner : lexeme.symbol ≠ .endOfFile) :
    lexeme.spelled.text =
      String.ofList ((TokenStream.ofText name text).sourceText lexeme.spelled.token) := by
  have covered := ((lexemes_ofText name short).covers lexeme member).spelled inner
  have characters : (TokenStream.ofText name text).sourceText lexeme.token =
      lexeme.spelling.toList := covered
  rw [Lexeme.spelled, characters, String.ofList_toList]

/-- A tree has kept what was read between two indexes of a stream. -/
structure Tree.Keeps (tree : Tree) (stream : TokenStream) (first last : Nat) : Prop where
  tokens : tree.tokens = (stream.tokens.take last).drop first
  reading : tree.reading = (stream.tokens.take last).drop first

/-- The names, the literals and the assembler text of a tree are the characters of their tokens. -/
def Tree.Quotes (tree : Tree) (stream : TokenStream) : Prop :=
  ∀ lexeme ∈ tree.texts, lexeme.text = String.ofList (stream.sourceText lexeme.token)

section Parse

variable
  {name : String}
  {text : List Char}
  {rule : Rule}
  {index : Nat}
  {cursor after : Cursor}
  {tree : Tree}

/-- What a rule yields has kept what was read. -/
theorem Rule.keeps_of_parse
    (place : cursor.Faces (.ofText name text) index)
    (parsed : rule.parse cursor = .ok tree after) :
    ∃ last, index ≤ last ∧ after.Faces (.ofText name text) last ∧
      tree.Keeps (.ofText name text) index last := by
  have reads := Production.run_eq_ok_iff.mp parsed
  rcases reads.passes with ⟨front, passed, tokens⟩
  have between := place.lexemes_between passed
  have kept : tree.tokens =
      ((TokenStream.ofText name text).tokens.take (index + front.length)).drop index := by
    have yielded : tree.tokens = front.map (·.token) := by simpa using tokens
    rw [yielded, TokenStream.tokens, ← List.map_take, ← List.map_drop, ← between]
  refine ⟨index + front.length, Nat.le_add_right _ _, place.passes passed, kept, ?_⟩
  rw [Tree.reading_eq_tokens tree (reads.arranged rule.shaped_production).1]
  exact kept

/-- What a rule yields quotes a short text. -/
theorem Rule.quotes_of_parse
    (short : text.length < wordCount)
    (place : cursor.Faces (.ofText name text) index)
    (parsed : rule.parse cursor = .ok tree after) :
    tree.Quotes (.ofText name text) := by
  have reads := Production.run_eq_ok_iff.mp parsed
  intro lexeme member
  have listed : lexeme ∈ Tree.textsOf [tree] := by simpa [Tree.textsOf] using member
  rcases reads.exists_of_mem_texts rule.textual_production listed with ⟨original, among, rfl⟩
  exact TokenStream.text_spelled short (place.mem_lexemes among) (place.symbol_ne_endOfFile among)

end Parse

/-- Nothing is left of a stream after a module. -/
theorem Parsed.exists_of_result_eq_ok
    {stream : TokenStream}
    {tree : Tree}
    (h : (Parsed.ofStream stream).result = .ok tree) :
    ∃ after, Rule.moduleUnit.parse (.ofStream stream) = .ok tree after ∧ after.rest = [] := by
  unfold ofStream at h
  split at h
  · rename_i parsed after run
    cases h
    rw [parseModule] at run
    simp only [Parser.bind_eq_ok_iff, Parser.pure_eq_ok_iff] at run
    rcases run with ⟨_, middle, parsed, _, last, finished, rfl, rfl⟩
    exact ⟨middle, parsed, (Parser.finish_eq_ok_iff.mp finished).1⟩
  · cases h

end Oberon
