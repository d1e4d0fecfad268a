import Mathlib.Data.List.Basic

/-!
# LIKE

A pattern becomes a regular expression: its characters are escaped, `%` becomes `.*` and `_`
becomes `.`. A dot of a regular expression does not match a line break.
-/

namespace OmniKV.Sql

open List

/-- The characters that `regex::escape` puts a backslash before. -/
def isMeta (c : Char) : Bool := "\\.+*?()|[]\x7b\x7d^$#&-~".toList.contains c

def escape (text : List Char) : List Char :=
  text.flatMap fun c => if isMeta c then ['\\', c] else [c]

def replaceChar (c : Char) (new text : List Char) : List Char :=
  text.flatMap fun d => if d = c then new else [d]

/-- The regular expression between the anchors `^` and `$`. -/
def likeRegex (pattern : List Char) : List Char :=
  replaceChar '_' ['.'] (replaceChar '%' ['.', '*'] (escape pattern))

inductive Piece
  | char (c : Char)
  | dot
  | dots

/-- The pieces of a regular expression that has no others. -/
def pieces : List Char → Option (List Piece)
  | [] => some []
  | '\\' :: c :: rest => if isMeta c then (pieces rest).map (.char c :: ·) else none
  | '.' :: '*' :: rest => (pieces rest).map (.dots :: ·)
  | '.' :: rest => (pieces rest).map (.dot :: ·)
  | c :: rest => if isMeta c then none else (pieces rest).map (.char c :: ·)

/-- The flag says whether a dot matches a line break. -/
def Piece.Matches (newLine : Bool) : Piece → List Char → Prop
  | char c, part => part = [c]
  | dot, part => ∃ c, (c = '\n' → newLine) ∧ part = [c]
  | dots, part => '\n' ∈ part → newLine

def Splits (newLine : Bool) : List Piece → List Char → Prop
  | [], text => text = []
  | p :: ps, text => ∃ part rest, text = part ++ rest ∧ p.Matches newLine part ∧
    Splits newLine ps rest

/-- The library. An expression that is too large is not built. -/
structure RegexCrate where
  build : List Char → Option (List Char → Bool)
  isMatch_iff : ∀ {source r ps text}, build source = some r → pieces source = some ps →
    (r text ↔ Splits false ps text)

def RegexCrate.like (regex : RegexCrate) (text pattern : List Char) : Bool :=
  ((regex.build (likeRegex pattern)).map (· text)).getD false

/-- What a character of a pattern stands for. -/
def pieceOf (c : Char) : Piece := if c = '%' then .dots else if c = '_' then .dot else .char c

/-- The text matches the pattern in the sense of the standard. -/
def Like (text pattern : List Char) : Prop := Splits true (pattern.map pieceOf) text

theorem likeRegex_cons (c : Char) (rest : List Char) : likeRegex (c :: rest) =
    (if c = '%' then ['.', '*'] else if c = '_' then ['.'] else if isMeta c then ['\\', c] else
    [c]) ++ likeRegex rest := by
  simp only [likeRegex, escape, replaceChar, flatMap_cons, flatMap_append]
  congr 1
  split_ifs <;> simp_all [isMeta]

/-- No star follows a dot that stands for one character. -/
theorem head?_likeRegex (pattern : List Char) : (likeRegex pattern).head? ≠ some '*' := by
  cases pattern with
  | nil => nofun
  | cons c rest =>
    rw [likeRegex_cons]
    split_ifs with _ _ special <;> simp
    exact fun same => special (same ▸ rfl)

theorem pieces_likeRegex (pattern : List Char) :
    pieces (likeRegex pattern) = some (pattern.map pieceOf) := by
  induction pattern with
  | nil => rfl
  | cons c rest ih =>
    rw [likeRegex_cons, map_cons, pieceOf]
    split_ifs with percent underscore special
    · simp [pieces, ih]
    · rw [singleton_append, pieces, ih]
      · rfl
      · intro t tail
        exact head?_likeRegex rest (by rw [tail]; rfl)
    · simp [pieces, special, ih]
    · have plain (d : Char) (escaped : isMeta d) : c ≠ d := fun same => special (same ▸ escaped)
      rw [singleton_append, pieces, if_neg special, ih]
      · rfl
      · exact fun _ _ same _ => plain _ rfl same
      · exact fun _ same _ => plain _ rfl same
      · exact plain _ rfl

variable {c : Char} {part text pattern : List Char}

/-- A part that is matched has no more line breaks than its character. -/
theorem matches_pieceOf_iff : (pieceOf c).Matches false part ↔
    (pieceOf c).Matches true part ∧ part.count '\n' ≤ [c].count '\n' := by
  unfold pieceOf
  split_ifs with percent underscore
  · simp [Piece.Matches, percent, count_eq_zero]
  · constructor
    · rintro ⟨d, solid, rfl⟩
      exact ⟨⟨d, fun _ => rfl, rfl⟩, by simp [mt solid Bool.false_ne_true]⟩
    · rintro ⟨⟨d, -, rfl⟩, few⟩
      refine ⟨d, ?_, rfl⟩
      rintro rfl
      simp [underscore] at few
  · exact ⟨fun same => ⟨same, Nat.le_of_eq (congrArg _ same)⟩, And.left⟩

theorem count_le_of_matches (stands : (pieceOf c).Matches true part) :
    [c].count '\n' ≤ part.count '\n' := by
  unfold pieceOf at stands
  split_ifs at stands with percent underscore
  · simp [percent]
  · simp [underscore]
  · exact Nat.le_of_eq (congrArg _ stands.symm)

theorem count_cons_eq : (c :: pattern).count '\n' = [c].count '\n' + pattern.count '\n' := by
  rw [← count_append, singleton_append]

theorem count_le_of_like (cut : Like text pattern) : pattern.count '\n' ≤ text.count '\n' := by
  induction pattern generalizing text with
  | nil => exact Nat.zero_le _
  | cons c pattern ih =>
    obtain ⟨part, rest, rfl, stands, cut⟩ := cut
    rw [count_append, count_cons_eq]
    exact Nat.add_le_add (count_le_of_matches stands) (ih cut)

theorem splits_iff : Splits false (pattern.map pieceOf) text ↔
    Like text pattern ∧ text.count '\n' ≤ pattern.count '\n' := by
  induction pattern generalizing text with
  | nil => exact ⟨fun empty => ⟨empty, Nat.le_of_eq (congrArg _ empty)⟩, And.left⟩
  | cons c pattern ih =>
    constructor
    · rintro ⟨part, rest, rfl, first, later⟩
      obtain ⟨stands, few⟩ := matches_pieceOf_iff.mp first
      obtain ⟨cut, fewer⟩ := ih.mp later
      refine ⟨⟨part, rest, rfl, stands, cut⟩, ?_⟩
      rw [count_append, count_cons_eq]
      exact Nat.add_le_add few fewer
    · rintro ⟨⟨part, rest, rfl, stands, cut⟩, few⟩
      have first := count_le_of_matches stands
      have later := count_le_of_like cut
      rw [count_append, count_cons_eq] at few
      exact ⟨part, rest, rfl, matches_pieceOf_iff.mpr ⟨stands, by omega⟩, ih.mpr ⟨cut, by omega⟩⟩

/-- LIKE is right unless a wildcard meets a line break, or the expression is too large. -/
theorem like_iff_like_iff (regex : RegexCrate) (text pattern : List Char) :
    (regex.like text pattern ↔ Like text pattern) ↔
      ¬Like text pattern ∨ (regex.build (likeRegex pattern)).isSome ∧
      text.count '\n' ≤ pattern.count '\n' := by
  rw [RegexCrate.like]
  cases built : regex.build (likeRegex pattern) with
  | none => simp
  | some r =>
    rw [Option.map_some, Option.getD_some, regex.isMatch_iff built (pieces_likeRegex pattern),
      splits_iff, Option.isSome_some]
    tauto

open Classical in
/-- The library without a limit. -/
noncomputable def unlimited : RegexCrate where
  build source := (pieces source).map fun ps text => decide (Splits false ps text)
  isMatch_iff built parsed := by
    rw [parsed] at built
    cases built
    exact decide_eq_true_iff

/-- A line break is a text that `%` does not match. -/
theorem percent_not_newline : ¬unlimited.like ['\n'] ['%'] ∧ Like ['\n'] ['%'] := by
  refine ⟨fun matched => ?_, ['\n'], [], rfl, fun _ => rfl, rfl⟩
  have cut : Splits false (['%'].map pieceOf) ['\n'] := by
    simpa [RegexCrate.like, unlimited, pieces_likeRegex] using matched
  exact absurd (splits_iff.mp cut).2 (by decide)

end OmniKV.Sql
