import Mathlib.Data.List.Induction
import RowScript.Proofs.ReadRanges

/-!
# What stands between two positions

Parsers read a text in which parts have been blanked with the line breaks kept. A parser *places*
its value if the value's range begins behind the blanks and ends where reading stopped.
-/

namespace RowScript

open Parser List

namespace Position

/-- The position behind a text that starts at a position. -/
def behind (position : Position) (text : List Char) : Position := text.foldl advance position

@[simp]
theorem behind_nil (position : Position) : position.behind [] = position := rfl

@[simp]
theorem behind_cons (position : Position) (c : Char) (text : List Char) :
    position.behind (c :: text) = (position.advance c).behind text := rfl

theorem behind_append (position : Position) (first second : List Char) :
    position.behind (first ++ second) = (position.behind first).behind second :=
  foldl_append

theorem le_behind (position : Position) (text : List Char) : position ≤ position.behind text := by
  induction text generalizing position with
  | nil => exact le_refl _
  | cons c rest ih => exact le_trans (le_advance position c) (ih _)

theorem lt_behind_cons (position : Position) (c : Char) (text : List Char) :
    position < position.behind (c :: text) :=
  lt_of_lt_of_le (lt_advance position c) (le_behind _ _)

/-- Counting line breaks gives the same position as walking through the text. -/
theorem ofOffset_length (text : List Char) : ofOffset text text.length = origin.behind text := by
  induction text using reverseRecOn with
  | nil => rfl
  | append_singleton text c ih =>
    rw [behind_append, ← ih]
    simp only [ofOffset, take_length, behind_cons, behind_nil, advance, count_append,
      reverse_append, reverse_cons, reverse_nil,
      nil_append, singleton_append, takeWhile_cons, bne_iff_ne, ne_eq]
    by_cases hc : c = '\n'
    · simp [hc]
    · simp [hc]

end Position

/-! ## The text of a range -/

/-- The characters of a text from a given position on which a range covers. -/
def Loc.sliceFrom (loc : Loc) (position : Position) : List Char → List Char
  | [] => []
  | c :: rest =>
    if loc.start ≤ position ∧ position < loc.stop then c :: loc.sliceFrom (position.advance c) rest
    else loc.sliceFrom (position.advance c) rest

/-- The text of a range. -/
def Loc.slice (loc : Loc) (text : List Char) : List Char := loc.sliceFrom .origin text

namespace Loc

variable {loc : Loc} {position : Position} {text : List Char}

theorem sliceFrom_of_stop_le (hstop : loc.stop ≤ position) : loc.sliceFrom position text = [] := by
  induction text generalizing position with
  | nil => rfl
  | cons c rest ih =>
    rw [sliceFrom, if_neg fun hcovers => absurd hcovers.2 (not_lt.mpr hstop)]
    exact ih (le_trans hstop (position.le_advance c))

theorem sliceFrom_append (before rest : List Char) (hstart : position.behind before ≤ loc.start) :
    loc.sliceFrom position (before ++ rest) = loc.sliceFrom (position.behind before) rest := by
  induction before generalizing position with
  | nil => rfl
  | cons c before ih =>
    have hlt : position < loc.start :=
      lt_of_lt_of_le (position.lt_behind_cons c before) hstart
    rw [cons_append, sliceFrom, if_neg fun hcovers => absurd hcovers.1 (not_le.mpr hlt)]
    exact ih hstart

theorem sliceFrom_behind {start : Position} (word rest : List Char) (hstart : start ≤ position) :
    sliceFrom ⟨start, position.behind word⟩ position (word ++ rest) = word := by
  induction word generalizing position with
  | nil => exact sliceFrom_of_stop_le (le_refl _)
  | cons c word ih =>
    have hlt : position < position.behind (c :: word) := position.lt_behind_cons c word
    rw [cons_append, sliceFrom, if_pos ⟨hstart, hlt⟩]
    exact congrArg _ (ih (le_trans hstart (position.le_advance c)))

/-- The text between the position behind a text and the one behind a longer text is what was
added. -/
theorem slice_behind (before word rest : List Char) :
    slice ⟨Position.origin.behind before, Position.origin.behind (before ++ word)⟩
      (before ++ word ++ rest) = word := by
  rw [slice, append_assoc, sliceFrom_append _ _ (le_refl _), Position.behind_append]
  exact sliceFrom_behind word rest (le_refl _)

end Loc

namespace Text

/-! ## Blanked texts -/

/-- The second text is the first one with some characters replaced by spaces. -/
def Blanked (text code : List Char) : Prop :=
  Forall₂ (fun c b => b = c ∨ (b = ' ' ∧ c ≠ '\n')) text code

theorem Blanked.refl (text : List Char) : Blanked text text :=
  forall₂_same.mpr fun _ _ => .inl rfl

theorem blanked_blank (text : List Char) : Blanked text (blank text) := by
  induction text with
  | nil => exact .nil
  | cons c rest ih =>
    refine .cons ?_ ih
    by_cases hc : c = '\n'
    · exact .inl (if_pos hc)
    · exact .inr ⟨if_neg hc, hc⟩

theorem Blanked.trans {text middle code : List Char} (hfirst : Blanked text middle)
    (hsecond : Blanked middle code) : Blanked text code := by
  induction hfirst generalizing code with
  | nil => exact hsecond
  | @cons c b text middle hc hrest ih =>
    cases hsecond with
    | cons hb hlast =>
      refine .cons ?_ (ih hlast)
      obtain rfl | ⟨rfl, hne⟩ := hb
      · exact hc
      · obtain rfl | ⟨-, hne⟩ := hc
        · exact .inr ⟨rfl, hne⟩
        · exact .inr ⟨rfl, hne⟩

theorem Blanked.append {first second firstCode secondCode : List Char}
    (hfirst : Blanked first firstCode) (hsecond : Blanked second secondCode) :
    Blanked (first ++ second) (firstCode ++ secondCode) :=
  rel_append hfirst hsecond

theorem Blanked.parts {offset length : Nat} {before within after : List Char}
    (hbefore : Blanked (text.take offset) before)
    (hwithin : Blanked ((text.drop offset).take length) within)
    (hafter : Blanked ((text.drop offset).drop length) after) :
    Blanked text (before ++ within ++ after) := by
  have hblanked := (hbefore.append hwithin).append hafter
  rwa [append_assoc (text.take offset), take_append_drop, take_append_drop] at hblanked

theorem blanked_blankWithin (text : List Char) (offset length : Nat) :
    Blanked text (blankWithin text offset length) :=
  .parts (.refl _) (blanked_blank _) (.refl _)

theorem blanked_blankAround (text : List Char) (offset length : Nat) :
    Blanked text (blankAround text offset length) :=
  .parts (blanked_blank _) (.refl _) (blanked_blank _)

theorem blanked_eraseAll (text : List Char) (comments : List Comment) :
    Blanked text (Comment.eraseAll text comments) := by
  induction comments generalizing text with
  | nil => exact .refl text
  | cons comment rest ih => exact (blanked_blankWithin _ _ _).trans (ih _)

/-- Blanking keeps the line breaks, so positions are counted as before. -/
theorem advance_blanked {c b : Char} (hc : b = c ∨ b = ' ' ∧ c ≠ '\n') (position : Position) :
    position.advance b = position.advance c := by
  obtain rfl | ⟨rfl, hne⟩ := hc
  · rfl
  · rw [Position.advance, Position.advance, if_neg hne]
    rfl

theorem Blanked.behind_eq {text code : List Char} (hblanked : Blanked text code)
    (position : Position) : position.behind code = position.behind text := by
  induction hblanked generalizing position with
  | nil => rfl
  | cons hc hrest ih => rw [Position.behind_cons, Position.behind_cons, advance_blanked hc, ih]

theorem Blanked.sliceFrom {text code : List Char} (hblanked : Blanked text code) (loc : Loc)
    (position : Position) :
    Blanked (loc.sliceFrom position text) (loc.sliceFrom position code) := by
  induction hblanked generalizing position with
  | nil => exact .nil
  | @cons c b text code hc hrest ih =>
    rw [Loc.sliceFrom, Loc.sliceFrom, advance_blanked hc]
    split
    · exact .cons hc (ih _)
    · exact ih _

/-- What is read without a blank in it stands in the original text. -/
theorem Blanked.slice_eq {text code word : List Char} (hblanked : Blanked text code) {loc : Loc}
    (hslice : loc.slice code = word) (hword : ' ' ∉ word) : loc.slice text = word := by
  have hslices : Blanked (loc.slice text) word := hslice ▸ hblanked.sliceFrom loc .origin
  generalize loc.slice text = found at hslices
  clear hslice
  induction hslices with
  | nil => rfl
  | @cons c b text word hc hrest ih =>
    rw [mem_cons, not_or] at hword
    obtain rfl | ⟨rfl, -⟩ := hc
    · rw [ih hword.2]
    · exact absurd rfl hword.1

/-! ## Cursors on a text -/

/-- The cursor stands inside a text, and knows where. -/
def Cursor.On (text : List Char) (cursor : Cursor) : Prop :=
  ∃ before, text = before ++ cursor.ahead ∧ cursor.offset = before.length ∧
    cursor.position = Position.origin.behind before

namespace Cursor

variable {text : List Char} {cursor : Cursor}

theorem on_start (text : List Char) : (Cursor.start text).On text := ⟨[], rfl, rfl, rfl⟩

theorem On.next (hon : cursor.On text) : cursor.next.On text := by
  obtain ⟨before, htext, hoffset, hposition⟩ := hon
  cases hahead : cursor.ahead with
  | nil =>
    rw [Cursor.next, hahead]
    exact ⟨before, htext, hoffset, hposition⟩
  | cons c rest =>
    rw [Cursor.next, hahead]
    refine ⟨before ++ [c], ?_, ?_, ?_⟩
    · rw [htext, hahead, append_assoc]
      rfl
    · simp [hoffset]
    · rw [Position.behind_append, ← hposition]
      rfl

theorem On.drop (hon : cursor.On text) (n : Nat) : (cursor.drop n).On text := by
  induction n generalizing cursor with
  | zero => exact hon
  | succ n ih => exact ih hon.next

theorem On.skipBlanks (hon : cursor.On text) : cursor.skipBlanks.On text := hon.drop _

theorem position_drop (n : Nat) (cursor : Cursor) :
    (cursor.drop n).position = cursor.position.behind (cursor.ahead.take n) := by
  induction n generalizing cursor with
  | zero => rfl
  | succ n ih =>
    rw [drop, ih]
    cases hahead : cursor.ahead with
    | nil | cons c rest => simp [next, hahead]

theorem On.le_end (hon : cursor.On text) : cursor.position ≤ Position.origin.behind text := by
  obtain ⟨before, rfl, -, hposition⟩ := hon
  rw [Position.behind_append, hposition]
  exact Position.le_behind _ _

/-- The range that is left behind on the way through some characters covers these. -/
theorem On.slice (hon : cursor.On text) (n : Nat) :
    Loc.slice ⟨cursor.position, (cursor.drop n).position⟩ text = cursor.ahead.take n := by
  obtain ⟨before, htext, -, hposition⟩ := hon
  have hparts : text = before ++ cursor.ahead.take n ++ cursor.ahead.drop n := by
    rw [append_assoc, take_append_drop, htext]
  rw [position_drop, hposition, ← Position.behind_append]
  conv_lhs => rw [hparts]
  exact Loc.slice_behind _ _ _

end Cursor

/-! ## Where parsers read -/

namespace Parser

variable {α β : Type} {code text : List Char} {p : Parser α} {loc : α → Loc} {P : α → Prop}
  {cursor rest : Cursor} {spelling : String} {result : Unit} {g : α → β}

/-- Reading the text, the parser stays inside of it and stops behind the blanks it starts with. -/
def Advances (code : List Char) (p : Parser α) : Prop :=
  ∀ cursor value rest, cursor.On code → p cursor = .done value rest →
    rest.On code ∧ cursor.skipBlanks.position ≤ rest.position

theorem advances_token (read : List Char → Option (α × Nat)) : (token read).Advances code := by
  intro cursor value rest hon hdone
  obtain ⟨length, -, rfl⟩ := token_eq_done hdone
  exact ⟨hon.skipBlanks.drop length, (Cursor.Reaches.drop length cursor.skipBlanks).position⟩

theorem advances_symbol (spelling : String) : (symbol spelling).Advances code := by
  rw [symbol, oneOf]
  exact advances_token _

/-- Reading a spelling that is not empty takes at least one character. -/
theorem on_oneOf {spellings : List (String × α)} {result : α} (hon : cursor.On code)
    (hdone : oneOf spellings cursor = .done result rest)
    (hspellings : ∀ spelling ∈ spellings, spelling.1.toList ≠ []) :
    rest.On code ∧ cursor.skipBlanks.position < rest.position := by
  obtain ⟨length, hread, rfl⟩ := token_eq_done hdone
  obtain ⟨found, hfind, hfound⟩ := Option.map_eq_some_iff.1 hread
  have hne := hspellings found (mem_of_find?_eq_some hfind)
  have hlead : found.1.toList <+: cursor.skipBlanks.ahead := by
    simpa using find?_some hfind
  obtain rfl : found.1.length = length := congrArg Prod.snd hfound
  refine ⟨hon.skipBlanks.drop _, Cursor.position_lt_drop ?_ ?_⟩
  · exact fun hzero => hne (eq_nil_of_length_eq_zero hzero)
  · rintro hnil
    rw [hnil] at hlead
    exact hne (prefix_nil.1 hlead)

theorem on_symbol (hon : cursor.On code) (hdone : symbol spelling cursor = .done result rest)
    (hne : spelling.toList ≠ []) :
    rest.On code ∧ cursor.skipBlanks.position < rest.position :=
  on_oneOf hon hdone (by simpa using hne)

theorem on_keyword (hon : cursor.On code) (hdone : keyword spelling cursor = .done result rest)
    (hne : spelling.toList ≠ []) :
    rest.On code ∧ cursor.skipBlanks.position < rest.position := by
  rw [keyword, keywordHere] at hdone
  dsimp only at hdone
  split at hdone
  case isTrue hlead =>
    split at hdone
    · cases hdone
    · split at hdone
      · cases hdone
      · obtain ⟨-, rfl⟩ := Outcome.done.inj hdone
        refine ⟨hon.skipBlanks.drop _, Cursor.position_lt_drop ?_ ?_⟩
        · exact fun hzero => hne (eq_nil_of_length_eq_zero hzero)
        · rintro hnil
          rw [hnil, isPrefixOf_iff_prefix] at hlead
          exact hne (prefix_nil.1 hlead)
  case isFalse => cases hdone

namespace Advances

variable {values : List α}

variable (hp : p.Advances code)

include hp

theorem orElse {q : Parser α} (hq : q.Advances code) : (p <|> q).Advances code := by
  intro cursor value rest hon hdone
  obtain hdone | hdone := of_orElse_eq_done hdone
  · exact hp cursor value rest hon hdone
  · exact hq cursor value rest hon hdone

theorem map : (g <$> p).Advances code := by
  intro cursor result rest hon hdone
  obtain ⟨value, hvalue, rfl⟩ := map_eq_done.1 hdone
  exact hp cursor value rest hon hvalue

/-- A part that may be absent leaves the cursor behind the blanks at least. -/
theorem optional : p.optional.Advances code := by
  intro cursor value rest hon hdone
  obtain ⟨found, -, hdone⟩ | ⟨-, rfl⟩ := optional_eq_done hdone
  · exact hp cursor found rest hon hdone
  · exact ⟨hon.skipBlanks, le_refl _⟩

theorem of_chained (hchained : Chained p cursor values rest) (hon : cursor.On code) :
    rest.On code ∧ cursor.position ≤ rest.position := by
  induction hchained with
  | nil cursor => exact ⟨hon, le_refl _⟩
  | @cons cursor middle rest value values hdone _ ih =>
    obtain ⟨hmiddle, hle⟩ := hp cursor value middle hon hdone
    obtain ⟨hrest, hlast⟩ := ih hmiddle
    exact ⟨hrest, by grind⟩

theorem of_mem (hchained : Chained p cursor values rest) (hon : cursor.On code) {value : α}
    (hvalue : value ∈ values) : ∃ before after, before.On code ∧ p before = .done value after := by
  induction hchained with
  | nil => cases hvalue
  | @cons cursor middle rest first values hdone _ ih =>
    obtain rfl | hvalue := mem_cons.1 hvalue
    · exact ⟨cursor, middle, hon, hdone⟩
    · exact ih (hp cursor first middle hon hdone).1 hvalue

end Advances

theorem on_optionalSymbol {result : Option Unit} (hon : cursor.On code)
    (hdone : (symbol spelling).optional cursor = .done result rest) :
    rest.On code ∧ cursor.skipBlanks.position ≤ rest.position :=
  (advances_symbol _).optional _ _ _ hon hdone

theorem on_of_quotedWith {quote : Char} {value : String} (hon : cursor.On code)
    (hdone : quotedWith quote cursor = .done value rest) : rest.On code := by
  rw [quotedWith] at hdone
  split at hdone
  · cases hdone
  · split at hdone
    · dsimp only at hdone
      split at hdone
      · obtain ⟨-, rfl⟩ := Outcome.done.inj hdone
        exact (hon.drop _).next
      · cases hdone
    · cases hdone

theorem on_of_quotedHere {value : String} (hon : cursor.On code)
    (hdone : quotedHere cursor = .done value rest) : rest.On code := by
  obtain hdone | hdone := of_orElse_eq_done hdone
  · exact on_of_quotedWith hon hdone
  · exact on_of_quotedWith hon hdone

theorem advances_quoted : quoted.Advances code := fun _ _ _ hon hdone =>
  ⟨on_of_quotedHere hon.skipBlanks hdone, (reaches_of_quotedHere hdone).position⟩

theorem advances_plainRun (opening closing : Char) : (plainRun opening closing).Advances code := by
  intro cursor value rest hon hdone
  rw [plainRun] at hdone
  split at hdone
  · cases hdone
  · obtain ⟨-, rfl⟩ := Outcome.done.inj hdone
    exact ⟨hon.skipBlanks.drop _, (Cursor.Reaches.drop _ _).position⟩

theorem advances_groupUpTo (opening closing : Char) (depth : Nat) :
    (groupUpTo opening closing depth).Advances code := by
  induction depth with
  | zero =>
    intro cursor value rest _ hdone
    cases hdone
  | succ depth ih =>
    intro cursor value rest hon hdone
    rw [groupUpTo] at hdone
    simp only [bind_eq_done] at hdone
    obtain ⟨_, opened, hopened, pieces, middle, hpieces, hclosed⟩ := hdone
    obtain ⟨hon, hopened⟩ := advances_symbol _ _ _ _ hon hopened
    have hpiece : (discard quoted <|> groupUpTo opening closing depth
        <|> plainRun opening closing).Advances code :=
      Advances.orElse (Advances.map advances_quoted) (ih.orElse (advances_plainRun _ _))
    obtain ⟨hon, hmiddle⟩ := hpiece.of_chained (chained_of_many hpieces) hon
    rw [groupEnd] at hclosed
    split at hclosed
    · obtain ⟨-, rfl⟩ := Outcome.done.inj hclosed
      have hnext := (Cursor.Reaches.next middle.skipBlanks).position
      exact ⟨hon.skipBlanks.next, by grind⟩
    · cases hclosed

theorem advances_group (opening closing : Char) : (group opening closing).Advances code :=
  fun _ => advances_groupUpTo _ _ _ _

/-- Reading the text, the parser stays inside of it, its values have the property, and their
ranges begin behind the blanks and end where reading stopped. -/
def Places (code : List Char) (p : Parser α) (loc : α → Loc) (P : α → Prop) : Prop :=
  ∀ cursor value rest, cursor.On code → p cursor = .done value rest →
    rest.On code ∧ P value ∧ (loc value).Inside ⟨cursor.skipBlanks.position, rest.position⟩

namespace Places

variable {q : Parser α}

theorem advances (hp : p.Places code loc P) : p.Advances code := by
  intro cursor value rest hon hdone
  obtain ⟨hrest, -, hinside⟩ := hp cursor value rest hon hdone
  exact ⟨hrest, hinside.outer⟩

theorem orElse (hp : p.Places code loc P) (hq : q.Places code loc P) :
    (p <|> q).Places code loc P := by
  intro cursor value rest hon hdone
  obtain hdone | hdone := of_orElse_eq_done hdone
  · exact hp cursor value rest hon hdone
  · exact hq cursor value rest hon hdone

theorem map {loc : β → Loc} {P : β → Prop}
    (hp : p.Places code (fun value => loc (g value)) fun value => P (g value)) :
    (g <$> p).Places code loc P := by
  intro cursor result rest hon hdone
  obtain ⟨value, hvalue, rfl⟩ := map_eq_done.1 hdone
  exact hp cursor value rest hon hvalue

theorem make {read : Loc × α → β} {loc : β → Loc} {P : Loc × α → Prop} {Q : β → Prop}
    (hp : p.located.Places code Prod.fst P) (hloc : ∀ found, loc (read found) = found.1)
    (hmade : ∀ found, P found → Q (read found)) :
    (p.located >>= fun found => pure (read found)).Places code loc Q := by
  intro cursor value rest hon hdone
  simp only [bind_eq_done, pure_eq_done] at hdone
  obtain ⟨found, middle, hread, rfl, rfl⟩ := hdone
  obtain ⟨hrest, hfound, hinside⟩ := hp cursor found middle hon hread
  exact ⟨hrest, hmade found hfound, hloc found ▸ hinside⟩

theorem located_orElse {P : Loc × α → Prop} (hp : p.located.Places code Prod.fst P)
    (hq : q.located.Places code Prod.fst P) : (p <|> q).located.Places code Prod.fst P := by
  intro cursor result rest hon hdone
  obtain ⟨hdone, hloc⟩ := located_eq_done.mp hdone
  obtain hdone | hdone := of_orElse_eq_done hdone
  · exact hp cursor result rest hon (located_eq_done.mpr ⟨hdone, hloc⟩)
  · exact hq cursor result rest hon (located_eq_done.mpr ⟨hdone, hloc⟩)

end Places

theorem Advances.located (hp : p.Advances code) : p.located.Places code Prod.fst fun _ => True := by
  intro cursor result rest hon hdone
  obtain ⟨hdone, hloc⟩ := located_eq_done.mp hdone
  obtain ⟨hrest, hle⟩ := hp cursor result.2 rest hon hdone
  rw [hloc]
  exact ⟨hrest, trivial, .refl hle⟩

/-- A token that is known by its text stands in the text at its range. -/
theorem places_token {read : List Char → Option (String × Nat)} (hblanked : Blanked text code)
    (hread : ∀ ahead word n, read ahead = some (word, n) →
      word.toList = ahead.take n ∧ ' ' ∉ word.toList) :
    (token read).located.Places code Prod.fst fun result =>
      result.1.slice text = result.2.toList := by
  intro cursor result rest hon hdone
  obtain ⟨hrest, -, hinside⟩ := (advances_token read).located cursor result rest hon hdone
  obtain ⟨hdone, hloc⟩ := located_eq_done.mp hdone
  obtain ⟨n, hword, rfl⟩ := token_eq_done hdone
  obtain ⟨htake, hblank⟩ := hread _ _ _ hword
  refine ⟨hrest, hblanked.slice_eq ?_ hblank, hinside⟩
  rw [hloc, hon.skipBlanks.slice, htake]

/-- A word whose characters are no blanks stands in the text at its range. -/
theorem places_wordOf (hblanked : Blanked text code) {first rest : Char → Bool}
    (hfirst : first ' ' = false) (hrest : rest ' ' = false) :
    (wordOf first rest).located.Places code Prod.fst fun result =>
      result.1.slice text = result.2.toList := by
  refine places_token hblanked fun ahead word n hread => ?_
  cases ahead with
  | nil => cases hread
  | cons c ahead =>
    dsimp only at hread
    split at hread
    · rename_i hc
      obtain ⟨rfl, rfl⟩ := Prod.mk.inj (Option.some.inj hread)
      have htail := prefix_iff_eq_take.mp ( takeWhile_prefix rest (l := ahead))
      rw [String.toList_ofList, take_succ_cons, ← htail]
      refine ⟨rfl, fun hmem => ?_⟩
      obtain rfl | hmem := mem_cons.mp hmem
      · rw [hfirst] at hc
        cases hc
      · rw [all_eq_true.mp all_takeWhile _ hmem] at hrest
        cases hrest
    · cases hread

/-- Items in the order of the text: each has the property and a range inside the given one,
and there is something between any two of them. -/
structure Lined (loc : α → Loc) (P : α → Prop) (range : Loc) (values : List α) : Prop where
  each : ∀ value ∈ values, P value ∧ (loc value).Inside range
  pairwise : values.Pairwise fun a b => (loc a).Before (loc b)

namespace Lined

variable {range : Loc} {value : α} {values : List α}

theorem nil : Lined loc P range [] := ⟨by simp, .nil⟩

theorem cons (hlined : Lined loc P range (value :: values)) :
    ((loc value).Inside range ∧ ∀ other ∈ values, (loc value).Before (loc other)) ∧ P value ∧
      Lined loc P range values := by
  obtain ⟨hvalue, hrest⟩ := forall_mem_cons.mp hlined.each
  obtain ⟨hbefore, hpairwise⟩ := pairwise_cons.mp hlined.pairwise
  exact ⟨⟨hvalue.2, hbefore⟩, hvalue.1, hrest, hpairwise⟩

theorem mono {outer : Loc} (hlined : Lined loc P range values) (hstart : outer.start ≤ range.start)
    (hstop : range.stop ≤ outer.stop) : Lined loc P outer values := by
  refine ⟨fun value hvalue => ?_, hlined.pairwise⟩
  obtain ⟨hP, hinside⟩ := hlined.each value hvalue
  exact ⟨hP, le_trans hstart hinside.start, hinside.ordered, le_trans hinside.stop hstop⟩

theorem push (hlined : Lined loc P range values) (hvalue : P value)
    (hinside : (loc value).Inside range)
    (hbefore : ∀ other ∈ values, (loc value).Before (loc other)) :
    Lined loc P range (value :: values) :=
  ⟨forall_mem_cons.mpr ⟨⟨hvalue, hinside⟩, hlined.each⟩,
    pairwise_cons.mpr ⟨hbefore, hlined.pairwise⟩⟩

end Lined

/-- Reading the text, the parser stays inside of it and gives items in the order of the text. -/
def LinesUp (code : List Char) (p : Parser (List α)) (loc : α → Loc) (P : α → Prop) : Prop :=
  ∀ cursor values rest, cursor.On code → p cursor = .done values rest → rest.On code ∧
    cursor.skipBlanks.position ≤ rest.position ∧
      Lined loc P ⟨cursor.skipBlanks.position, rest.position⟩ values

/-- Behind a first item and before each further one stands a comma. -/
theorem Places.lined_of_chained (hp : p.Places code loc P) {first : Loc} {values : List α}
    (hchained : Chained (do symbol ","; p) cursor values rest) (hon : cursor.On code)
    (hfirst : first.stop ≤ cursor.position) :
    rest.On code ∧ cursor.position ≤ rest.position ∧
      Lined loc P ⟨cursor.position, rest.position⟩ values ∧
        ∀ value ∈ values, first.Before (loc value) := by
  induction hchained generalizing first with
  | nil cursor => exact ⟨hon, le_refl _, .nil, by simp⟩
  | @cons cursor middle rest value values hdone _ ih =>
    obtain ⟨_, comma, hcomma, hvalue⟩ := bind_eq_done.1 hdone
    obtain ⟨hcommaOn, hread⟩ := on_symbol hon hcomma (by decide)
    obtain ⟨hmiddle, hP, hinside⟩ := hp comma value middle hcommaOn hvalue
    obtain ⟨hrest, hle, hlined, hbefore⟩ := ih hmiddle hinside.stop
    refine ⟨hrest, by grind, (hlined.mono (by grind) (by grind)).push hP (by grind) hbefore, ?_⟩
    grind

theorem Places.commaSeparated (hp : p.Places code loc P) :
    (commaSeparated p).LinesUp code loc P := by
  intro cursor values rest hon hdone
  simp only [Parser.commaSeparated, bind_eq_done, pure_eq_done] at hdone
  obtain ⟨first, middle, hfirst, others, last, hothers, rfl, rfl⟩ := hdone
  obtain ⟨hmiddle, hP, hinside⟩ := hp cursor first middle hon hfirst
  obtain ⟨hlast, hle, hlined, hbefore⟩ :=
    hp.lined_of_chained (chained_of_many hothers) hmiddle hinside.stop
  exact ⟨hlast, by grind, (hlined.mono (by grind) (by grind)).push hP (by grind) hbefore⟩

theorem Places.commaTerminated (hp : p.Places code loc P) :
    (commaTerminated p).LinesUp code loc P := by
  intro cursor values rest hon hdone
  simp only [Parser.commaTerminated, bind_eq_done, pure_eq_done] at hdone
  obtain ⟨values, middle, hvalues, comma, last, hcomma, rfl, rfl⟩ := hdone
  obtain ⟨hmiddle, hle, hlined⟩ := hp.commaSeparated _ _ _ hon hvalues
  obtain ⟨hlast, hrest⟩ := on_optionalSymbol hmiddle hcomma
  exact ⟨hlast, by grind, hlined.mono (le_refl _) (by grind)⟩

/-- Items between delimiters stand behind the start of the whole. -/
theorem LinesUp.between {opening closing : String} {items : Parser (List α)} {values : List α}
    (hitems : items.LinesUp code loc P) (hon : cursor.On code)
    (hdone : between opening closing items cursor = .done values rest)
    (hne : opening.toList ≠ [] ∧ closing.toList ≠ []) :
    rest.On code ∧ cursor.skipBlanks.position < rest.position ∧
      Lined loc P ⟨cursor.skipBlanks.position, rest.position⟩ values ∧
        ∀ value ∈ values, cursor.skipBlanks.position < (loc value).start := by
  simp only [Parser.between, bind_eq_done, pure_eq_done] at hdone
  obtain ⟨_, opened, hopened, found, middle, hfound, _, last, hclosed, rfl, rfl⟩ := hdone
  obtain ⟨hopenedOn, hstart⟩ := on_symbol hon hopened hne.1
  obtain ⟨values, rfl, hvalues⟩ | ⟨rfl, rfl⟩ := optional_eq_done hfound
  · obtain ⟨hmiddle, hle, hlined⟩ := hitems opened values middle hopenedOn hvalues
    obtain ⟨hlast, hstop⟩ := on_symbol hmiddle hclosed hne.2
    refine ⟨hlast, by grind, hlined.mono (by grind) (by grind), fun value hvalue => ?_⟩
    have hinside := (hlined.each value hvalue).2.start
    grind
  · obtain ⟨hlast, hstop⟩ := on_symbol hopenedOn.skipBlanks hclosed hne.2
    exact ⟨hlast, by grind, .nil, by simp⟩

end Parser

/-! ## Comments -/

namespace Comment

variable {text : List Char} {cursor rest : Cursor} {comment : Comment}

/-- The value of a comment is the text at its offset. -/
def IsCited (text : List Char) (comment : Comment) : Prop :=
  comment.value = (text.drop comment.offset).take comment.value.length

theorem on_of_read? (hon : cursor.On text) (hread : read? cursor = some (comment, rest)) :
    rest.On text ∧ comment.IsCited text := by
  -- behind the two characters of the mark begins the body, and the value is a part of that
  have hvalue : ∀ mark body length, cursor.ahead = mark ++ body → mark.length = 2 →
      body.take length =
        (text.drop (cursor.offset + 2)).take (body.take length).length := by
    intro mark body length hahead hmark
    obtain ⟨before, rfl, hoffset, -⟩ := hon
    have hbody : (before ++ cursor.ahead).drop (cursor.offset + 2) = body := by
      rw [hoffset, ← hmark, hahead, ← append_assoc, ← length_append, drop_left]
    rw [hbody, ← prefix_iff_eq_take]
    exact take_prefix _ _
  rw [read?] at hread
  split at hread
  case h_1 body hahead =>
    obtain ⟨length, -, hread⟩ := Option.map_eq_some_iff.mp hread
    cases hread
    exact ⟨hon.drop _, hvalue ['/', '*'] body length hahead rfl⟩
  case h_2 body hahead =>
    cases hread
    exact ⟨hon.drop _, hvalue ['/', '/'] body _ hahead rfl⟩
  case h_3 => cases hread

theorem scanUpTo_cited (n : Nat) (hon : cursor.On text) :
    ∀ comment ∈ scanUpTo n cursor, comment.IsCited text ∧
      comment.loc.Inside ⟨.origin, Position.origin.behind text⟩ := by
  induction n generalizing cursor with
  | zero => exact fun comment hcomment => by cases hcomment
  | succ n ih =>
    intro comment hcomment
    rw [scanUpTo] at hcomment
    split at hcomment
    case h_1 value rest hquoted =>
      exact ih (Parser.on_of_quotedHere hon.skipBlanks hquoted) comment hcomment
    case h_2 =>
      split at hcomment
      case h_1 first rest hread =>
        obtain ⟨hrest, hcited⟩ := on_of_read? hon.skipBlanks hread
        obtain rfl | hcomment := mem_cons.mp hcomment
        · obtain ⟨hloc, -, hreaches, -, -⟩ := read?_eq_some hread
          obtain ⟨before, -, -, hposition⟩ := hon.skipBlanks
          refine ⟨hcited, ?_⟩
          rw [hloc]
          refine ⟨?_, hreaches.position, hrest.le_end⟩
          rw [hposition]
          exact Position.le_behind _ _
        · exact ih hrest comment hcomment
      case h_2 =>
        split at hcomment
        · cases hcomment
        · exact ih hon.skipBlanks.next comment hcomment

theorem scan_cited (text : List Char) :
    ∀ comment ∈ scan text, comment.IsCited text ∧
      comment.loc.Inside ⟨.origin, Position.origin.behind text⟩ :=
  scanUpTo_cited _ (Cursor.on_start text)

end Comment

end Text

end RowScript
