import Oberon.Scan.Layout

/-!
# Gaps

What may stand between two tokens, as a grammar: blanks and complete comments (`Gap`), where a
comment contains characters and other complete comments (`CommentTail`).  A comment is unterminated
if no beginning of what follows its opening mark closes it.

`laidOut_layout` says what the reader of layout makes of a text: it takes a gap off and stops before
a character that belongs to none, or it meets an unterminated comment and takes everything.
Conversely a gap at the head of a text is always taken whole (`Gap.layout_append`).
-/

namespace Oberon.Scan

/-- True if a text starts with the opening or the closing mark of a comment. -/
def startsCommentMark : List Char → Bool
  | '(' :: '*' :: _ => true
  | '*' :: ')' :: _ => true
  | _ => false

/-- What follows the opening mark of a comment, up to and including the closing mark. -/
inductive CommentTail : List Char → Prop
  | closing :
      CommentTail ['*', ')']
  | nested
      {inner rest : List Char}
      (comment : CommentTail inner)
      (others : CommentTail rest) :
      CommentTail ('(' :: '*' :: inner ++ rest)
  | plain
      {c : Char}
      {rest : List Char}
      (ordinary : startsCommentMark (c :: rest) = false)
      (others : CommentTail rest) :
      CommentTail (c :: rest)

/-- Blanks and complete comments. -/
inductive Gap : List Char → Prop
  | nil :
      Gap []
  | blank
      {c : Char}
      {rest : List Char}
      (skipped : isBlank c = true)
      (others : Gap rest) :
      Gap (c :: rest)
  | comment
      {inner rest : List Char}
      (comment : CommentTail inner)
      (others : Gap rest) :
      Gap ('(' :: '*' :: inner ++ rest)

/-- A comment that nothing closes. -/
def Unterminated (text : List Char) : Prop :=
  ∃ inner, text = '(' :: '*' :: inner ∧ ∀ front, front <+: inner → ¬ CommentTail front

/-- True if a text starts with a blank or a comment. -/
def startsGap : List Char → Bool
  | '(' :: '*' :: _ => true
  | c :: _ => isBlank c
  | [] => false

theorem Gap.of_blanks
    {gap : List Char}
    (h : ∀ c ∈ gap, isBlank c = true) :
    Gap gap := by
  induction gap with
  | nil => exact .nil
  | cons c rest ih =>
    exact .blank (h c List.mem_cons_self) (ih fun d member => h d (List.mem_cons_of_mem c member))

/-- A gap that is not empty starts with a blank or a parenthesis. -/
theorem Gap.exists_of_ne_nil
    {gap : List Char}
    (h : Gap gap)
    (filled : gap ≠ []) :
    ∃ c rest, gap = c :: rest ∧ (isBlank c = true ∨ c = '(') := by
  cases h with
  | nil => exact absurd rfl filled
  | blank skipped _ => exact ⟨_, _, rfl, .inl skipped⟩
  | comment _ _ => exact ⟨_, _, rfl, .inr rfl⟩

theorem CommentTail.ne_nil
    {text : List Char}
    (h : CommentTail text) :
    text ≠ [] := by
  cases h <;> exact List.cons_ne_nil _ _

/-- Whether a mark comes first is seen from two characters. -/
theorem startsCommentMark_append
    {c : Char}
    {front : List Char}
    (filled : front ≠ [])
    (back : List Char) :
    startsCommentMark (c :: (front ++ back)) = startsCommentMark (c :: front) := by
  cases front with
  | nil => exact absurd rfl filled
  | cons d front =>
    simp only [startsCommentMark, List.cons_append]
    split <;> simp_all

attribute [local simp] skipLayout

theorem skipLayout_plain
    {c : Char}
    {rest : List Char}
    (ordinary : startsCommentMark (c :: rest) = false)
    (depth : Nat) :
    skipLayout (depth + 1) (c :: rest) = (skipLayout (depth + 1) rest).after [c] := by
  rw [skipLayout]
  · rintro rest' rfl rfl
    cases ordinary
  · rintro rest' rfl rfl
    cases ordinary

theorem Cut.after_after
    (first second : List Char)
    (cut : Cut) :
    (cut.after second).after first = cut.after (first ++ second) := by
  simp [Cut.after]

theorem Verdict.after_after
    (first second : List Char)
    (verdict : Verdict) :
    (verdict.after second).after first = verdict.after (first ++ second) := by
  simp [Verdict.after, Cut.after_after]

/-- The rest of a comment closes one comment. -/
theorem CommentTail.skipLayout_append
    {tail : List Char}
    (h : CommentTail tail)
    (depth : Nat)
    (back : List Char) :
    skipLayout (depth + 1) (tail ++ back) = (skipLayout depth back).after tail := by
  induction h generalizing depth back with
  | closing => simp
  | nested _ _ inner others =>
    simp only [List.cons_append, List.append_assoc, skipLayout]
    rw [inner, others, Verdict.after_after, Verdict.after_after]
    rfl
  | plain ordinary below ih =>
    rw [← startsCommentMark_append below.ne_nil back] at ordinary
    rw [List.cons_append, skipLayout_plain ordinary, ih, Verdict.after_after]
    rfl

/-- A gap at the head of a text is taken whole. -/
theorem Gap.layout_append
    {gap : List Char}
    (h : Gap gap)
    (back : List Char) :
    layout (gap ++ back) = (layout back).after gap := by
  induction h with
  | nil => simp [Verdict.after, Cut.after]
  | @blank c rest skipped _ ih =>
    have other : c ≠ '(' := by
      rintro rfl
      cases skipped
    rw [List.cons_append, layout, skipLayout, if_pos skipped]
    · rw [← layout, ih, Verdict.after_after]
      rfl
    · intro rest' same
      exact absurd same other
  | comment inner _ ih =>
    simp only [List.cons_append, List.append_assoc, layout, skipLayout]
    rw [inner.skipLayout_append, ← layout, ih, Verdict.after_after, Verdict.after_after]
    rfl

/-- Layout stops at once before anything that is neither blank nor comment. -/
theorem layout_of_not_startsGap
    {text : List Char}
    (h : startsGap text = false) :
    layout text = ⟨.start text, true⟩ := by
  fun_cases startsGap text with
  | case1 rest => cases h
  | case2 c rest other =>
    have visible : isBlank c = false := by
      rwa [startsGap] at h
      exact other
    rw [layout, skipLayout, if_neg (by simp [visible])]
    exact other
  | case3 => rfl

theorem length_lt_comment
    (inner back : List Char) :
    back.length < ('(' :: '*' :: (inner ++ back)).length := by
  simp only [List.length_cons, List.length_append]
  omega

/-- Inside of a comment, either a beginning of the text closes it, or all of the text belongs to
it. -/
theorem exists_commentTail_or_skipLayout
    (text : List Char) :
    (∃ front back, text = front ++ back ∧ CommentTail front) ∨
      ∀ depth, skipLayout (depth + 1) text = ⟨⟨text, []⟩, false⟩ := by
  induction size : text.length using Nat.strongRecOn generalizing text with
  | ind size ih =>
    subst size
    cases text with
    | nil => exact .inr fun depth => rfl
    | cons c rest =>
      by_cases marked : startsCommentMark (c :: rest) = true
      · unfold startsCommentMark at marked
        split at marked
        · rename_i rest' same
          cases same
          -- a comment inside: what follows its end decides
          rcases ih _ (length_lt_comment [] rest') rest' rfl with
            ⟨inner, back, rfl, comment⟩ | swallowed
          · rcases ih _ (length_lt_comment inner back) back rfl with
              ⟨front, back, rfl, others⟩ | swallowed
            · exact .inl ⟨'(' :: '*' :: inner ++ front, back, by simp, .nested comment others⟩
            · refine .inr fun depth => ?_
              rw [skipLayout, comment.skipLayout_append, swallowed]
              simp [Verdict.after, Cut.after]
          · refine .inr fun depth => ?_
            rw [skipLayout, swallowed]
            rfl
        · rename_i rest' same
          cases same
          exact .inl ⟨['*', ')'], rest', rfl, .closing⟩
        · cases marked
      · have ordinary : startsCommentMark (c :: rest) = false := by simpa using marked
        rcases ih _ (by simp) rest rfl with ⟨front, back, rfl, others⟩ | swallowed
        · refine .inl ⟨c :: front, back, rfl, .plain ?_ others⟩
          rwa [← startsCommentMark_append others.ne_nil back]
        · refine .inr fun depth => ?_
          rw [skipLayout_plain ordinary, swallowed]
          rfl

/-- An unterminated comment takes up all the rest. -/
theorem Unterminated.layout_eq
    {text : List Char}
    (h : Unterminated text) :
    layout text = ⟨⟨text, []⟩, false⟩ := by
  rcases h with ⟨inner, rfl, never⟩
  rcases exists_commentTail_or_skipLayout inner with ⟨front, back, rfl, comment⟩ | swallowed
  · exact absurd comment (never front (List.prefix_append front back))
  · rw [layout, skipLayout, swallowed]
    rfl

/-- The ways in which a text can begin with layout. -/
inductive LaidOut : List Char → Verdict → Prop
  | closed
      {gap rest : List Char}
      (skipped : Gap gap)
      (bare : startsGap rest = false) :
      LaidOut (gap ++ rest) ⟨⟨gap, rest⟩, true⟩
  | unclosed
      {gap comment : List Char}
      (skipped : Gap gap)
      (swallowed : Unterminated comment) :
      LaidOut (gap ++ comment) ⟨⟨gap ++ comment, []⟩, false⟩

theorem LaidOut.after_blank
    {c : Char}
    {text : List Char}
    {verdict : Verdict}
    (skipped : isBlank c = true)
    (h : LaidOut text verdict) :
    LaidOut (c :: text) (verdict.after [c]) := by
  cases h with
  | closed others bare => exact .closed (.blank skipped others) bare
  | unclosed others swallowed => exact .unclosed (.blank skipped others) swallowed

theorem LaidOut.after_comment
    {inner text : List Char}
    {verdict : Verdict}
    (comment : CommentTail inner)
    (h : LaidOut text verdict) :
    LaidOut ('(' :: '*' :: inner ++ text) (verdict.after ('(' :: '*' :: inner)) := by
  cases h with
  | closed others bare =>
    rw [← List.append_assoc]
    exact .closed (.comment comment others) bare
  | unclosed others swallowed =>
    rw [Verdict.after, Cut.after, ← List.append_assoc]
    exact .unclosed (.comment comment others) swallowed

/-- The reader of layout takes a gap off a text, or everything if a comment is left open. -/
theorem laidOut_layout
    (text : List Char) :
    LaidOut text (layout text) := by
  induction size : text.length using Nat.strongRecOn generalizing text with
  | ind size ih =>
    subst size
    cases bare : startsGap text with
    | false =>
      rw [layout_of_not_startsGap bare]
      exact .closed .nil bare
    | true =>
      unfold startsGap at bare
      split at bare
      · rename_i rest
        by_cases closes : ∃ inner back, rest = inner ++ back ∧ CommentTail inner
        · rcases closes with ⟨inner, back, rfl, comment⟩
          have same : layout ('(' :: '*' :: (inner ++ back)) =
              (layout back).after ('(' :: '*' :: inner) := by
            rw [layout, skipLayout, comment.skipLayout_append, Verdict.after_after]
            rfl
          rw [same]
          exact .after_comment comment (ih _ (length_lt_comment inner back) back rfl)
        · have swallowed : Unterminated ('(' :: '*' :: rest) := by
            refine ⟨rest, rfl, ?_⟩
            rintro inner ⟨back, same⟩ comment
            exact closes ⟨inner, back, same.symm, comment⟩
          rw [swallowed.layout_eq]
          exact .unclosed .nil swallowed
      · rename_i c rest other
        rw [layout, skipLayout, if_pos bare]
        · exact .after_blank bare (ih _ (by simp) rest rfl)
        · exact other
      · cases bare

end Oberon.Scan
