import RowScript.Proofs.Reading
import RowScript.Text.Comment

/-!
# The comments of a text

Scanning a text only moves the cursor ahead, so comments are found in the order in which they stand,
no two of them overlap, and a line comment is the last one of its line.
-/

namespace RowScript

open Position

namespace Position

/-- Positions in the order of the text, where a position is not after itself. -/
instance : LE Position := ⟨fun a b => ¬b < a⟩

variable {a b : Position}

theorem lt_iff : a < b ↔ a.line < b.line ∨ (a.line = b.line ∧ a.column < b.column) := Iff.rfl

theorem le_iff_not_lt : a ≤ b ↔ ¬b < a := Iff.rfl

theorem le_refl (a : Position) : a ≤ a := by
  rw [le_iff_not_lt, lt_iff]
  omega

theorem le_trans {c : Position} (hab : a ≤ b) (hbc : b ≤ c) : a ≤ c := by
  rw [le_iff_not_lt, lt_iff] at hab hbc ⊢
  omega

theorem line_le_of_le (hab : a ≤ b) : a.line ≤ b.line := by
  rw [le_iff_not_lt, lt_iff] at hab
  omega

theorem le_advance (position : Position) (c : Char) : position ≤ position.advance c := by
  rw [advance, le_iff_not_lt, lt_iff]
  split
  · simp only
    omega
  · simp only
    omega

end Position

namespace Text

namespace Cursor

/-- The second cursor stands at or behind the first one. -/
structure Reaches (a b : Cursor) : Prop where
  position : a.position ≤ b.position
  offset : a.offset ≤ b.offset

namespace Reaches

theorem refl (cursor : Cursor) : cursor.Reaches cursor :=
  ⟨le_refl _, Nat.le_refl _⟩

theorem trans {a b c : Cursor} (hab : a.Reaches b) (hbc : b.Reaches c) : a.Reaches c :=
  ⟨le_trans hab.position hbc.position, Nat.le_trans hab.offset hbc.offset⟩

theorem next (cursor : Cursor) : cursor.Reaches cursor.next := by
  rw [Cursor.next]
  split
  · exact refl cursor
  · exact ⟨le_advance cursor.position _, Nat.le_succ _⟩

theorem drop (n : Nat) (cursor : Cursor) : cursor.Reaches (cursor.drop n) := by
  induction n generalizing cursor with
  | zero => exact refl cursor
  | succ n ih => exact (next cursor).trans (ih cursor.next)

theorem skipBlanks (cursor : Cursor) : cursor.Reaches cursor.skipBlanks := drop _ cursor

end Reaches

variable {cursor : Cursor}

theorem offset_lt_drop_succ (n : Nat) (hahead : cursor.ahead ≠ []) :
    cursor.offset < (cursor.drop (n + 1)).offset := by
  have hnext : cursor.next.offset = cursor.offset + 1 := by
    rw [next]
    split
    case h_1 hnil => exact absurd hnil hahead
    case h_2 => rfl
  have hdrop := (Reaches.drop n cursor.next).offset
  rw [hnext] at hdrop
  exact hdrop

/-- In front of a line feed, skipping blanks leads to a later line. -/
theorem line_lt_skipBlanks {rest : List Char} (hahead : cursor.ahead = '\n' :: rest) :
    cursor.position.line < cursor.skipBlanks.position.line := by
  have hskip : cursor.skipBlanks = cursor.next.drop (rest.takeWhile isBlank).length := by
    rw [skipBlanks, dropWhile, hahead]
    rfl
  have hline : cursor.next.position.line = cursor.position.line + 1 := by
    simp [next, hahead, advance]
  have hle := line_le_of_le
    (Reaches.drop (rest.takeWhile isBlank).length cursor.next).position
  rw [hskip]
  omega

end Cursor

namespace Parser

variable {quote : Char} {cursor rest : Cursor} {value : String}

theorem quotedWith_eq_failed (hquote : cursor.ahead.head? ≠ some quote) :
    quotedWith quote cursor = .failed cursor.offset := by
  rw [quotedWith]
  cases hahead : cursor.ahead with
  | nil => rfl
  | cons c rest =>
    have hne : c ≠ quote := by
      rintro rfl
      exact hquote (by rw [hahead]; rfl)
    exact if_neg hne

theorem quotedHere_eq_failed (hdouble : cursor.ahead.head? ≠ some '"')
    (hsingle : cursor.ahead.head? ≠ some '\'') : quotedHere cursor = .failed cursor.offset := by
  show Parser.orElse (quotedWith '"') (fun _ => quotedWith '\'') cursor = _
  rw [Parser.orElse, quotedWith_eq_failed hdouble]
  simp only [quotedWith_eq_failed hsingle, Nat.max_self]

theorem reaches_of_quotedWith (hrun : quotedWith quote cursor = .done value rest) :
    cursor.Reaches rest := by
  rw [quotedWith] at hrun
  split at hrun
  · cases hrun
  · split at hrun
    · simp only at hrun
      split at hrun
      · cases hrun
        exact (Cursor.Reaches.drop _ cursor).trans (.next _)
      · cases hrun
    · cases hrun

theorem reaches_of_quotedHere (hrun : quotedHere cursor = .done value rest) :
    cursor.Reaches rest := by
  have hrun : Parser.orElse (quotedWith '"') (fun _ => quotedWith '\'') cursor = .done value rest :=
    hrun
  rw [Parser.orElse] at hrun
  split at hrun
  case h_1 =>
    split at hrun
    case h_1 => cases hrun
    case h_2 => exact reaches_of_quotedWith hrun
  case h_2 => exact reaches_of_quotedWith hrun

end Parser

namespace Comment

/-- The first comment ends before the second one starts, on an earlier line if it is a
line comment. -/
structure Before (a b : Comment) : Prop where
  offset : a.offset < b.offset
  stop : a.loc.stop ≤ b.loc.start
  line : a.isBlock = false → a.loc.stop.line < b.loc.start.line

theorem lineLength_drop (body : List Char) (c : Char) (rest : List Char)
    (hrest : body.drop (lineLength body) = c :: rest) : c = '\n' := by
  fun_induction lineLength body with
  | case1 => cases hrest
  | case2 rest' ih => exact ih hrest
  | case3 rest' _ =>
    cases hrest
    rfl
  | case4 c' rest' _ hc ih => exact ih hrest

variable {cursor : Cursor} {comment : Comment}

/-- What is known about a comment and the cursor behind it. -/
theorem read?_eq_some {rest : Cursor} (hread : read? cursor = some (comment, rest)) :
    comment.loc = ⟨cursor.position, rest.position⟩ ∧ comment.offset = cursor.offset + 2 ∧
      cursor.Reaches rest ∧ cursor.offset < rest.offset ∧
      (comment.isBlock = false → ∀ c tail, rest.ahead = c :: tail → c = '\n') := by
  rw [read?] at hread
  split at hread
  case h_1 body hahead =>
    obtain ⟨length, hlength, hread⟩ := Option.map_eq_some_iff.mp hread
    cases hread
    exact ⟨rfl, rfl, .drop _ cursor, Cursor.offset_lt_drop_succ _ (by simp [hahead]), nofun⟩
  case h_2 body hahead =>
    cases hread
    refine ⟨rfl, rfl, .drop _ cursor, Cursor.offset_lt_drop_succ _ (by simp [hahead]), ?_⟩
    intro _ c tail hrest
    rw [Cursor.ahead_drop, hahead] at hrest
    exact lineLength_drop body c tail hrest
  case h_3 => cases hread

theorem scanUpTo_end (hend : cursor.ahead = []) (n : Nat) : scanUpTo n cursor = [] := by
  cases n with
  | zero => rfl
  | succ n =>
    have hblanks : cursor.skipBlanks.ahead = [] := by
      rw [Cursor.ahead_skipBlanks, hend, skipped_nil]
    have hquoted : Parser.quotedHere cursor.skipBlanks = .failed cursor.skipBlanks.offset :=
      Parser.quotedHere_eq_failed (by simp [hblanks]) (by simp [hblanks])
    simp [scanUpTo, hquoted, read?, hblanks]

/-- Comments start behind the cursor and the blanks ahead of it, and end where they start or
later. -/
theorem scanUpTo_reaches (n : Nat) (cursor : Cursor) :
    ∀ comment ∈ scanUpTo n cursor, cursor.skipBlanks.position ≤ comment.loc.start ∧
      cursor.offset + 2 ≤ comment.offset ∧ comment.loc.start ≤ comment.loc.stop := by
  induction n generalizing cursor with
  | zero =>
    intro comment hcomment
    cases hcomment
  | succ n ih =>
    intro comment hcomment
    have hskip := Cursor.Reaches.skipBlanks cursor
    -- what is found behind a later cursor is behind this one
    have hlater : ∀ rest, cursor.skipBlanks.Reaches rest → comment ∈ scanUpTo n rest →
        cursor.skipBlanks.position ≤ comment.loc.start ∧ cursor.offset + 2 ≤ comment.offset ∧
          comment.loc.start ≤ comment.loc.stop := by
      intro rest hrest hcomment
      have hih := ih rest comment hcomment
      have hreach := hrest.trans (.skipBlanks rest)
      have hoffset := hskip.trans hrest
      exact ⟨le_trans hreach.position hih.1,
        Nat.le_trans (Nat.add_le_add_right hoffset.offset 2) hih.2.1, hih.2.2⟩
    rw [scanUpTo] at hcomment
    split at hcomment
    case h_1 value rest hquoted =>
      exact hlater rest (Parser.reaches_of_quotedHere hquoted) hcomment
    case h_2 =>
      split at hcomment
      case h_1 first rest hread =>
        obtain ⟨hloc, hoffset, hreaches, -, -⟩ := read?_eq_some hread
        rcases List.mem_cons.mp hcomment with rfl | hcomment
        · rw [hloc, hoffset]
          exact ⟨le_refl _, Nat.add_le_add_right hskip.offset 2, hreaches.position⟩
        · exact hlater rest hreaches hcomment
      case h_2 =>
        split at hcomment
        · cases hcomment
        · exact hlater _ (.next _) hcomment

theorem scanUpTo_pairwise (n : Nat) (cursor : Cursor) : (scanUpTo n cursor).Pairwise Before := by
  induction n generalizing cursor with
  | zero => exact .nil
  | succ n ih =>
    rw [scanUpTo]
    split
    case h_1 value rest hquoted => exact ih rest
    case h_2 =>
      split
      case h_1 first rest hread =>
        apply List.Pairwise.cons _ (ih rest)
        intro other hother
        obtain ⟨hloc, hoffset, -, hlt, hline⟩ := read?_eq_some hread
        have hreaches := scanUpTo_reaches n rest other hother
        refine ⟨by omega, ?_, ?_⟩
        · rw [hloc]
          exact le_trans (Cursor.Reaches.skipBlanks rest).position hreaches.1
        · intro hblock
          rw [hloc]
          cases hahead : rest.ahead with
          | nil =>
            rw [scanUpTo_end hahead] at hother
            cases hother
          | cons c tail =>
            have hc := hline hblock c tail hahead
            subst hc
            have hskip := Cursor.line_lt_skipBlanks hahead
            have hstart := line_le_of_le hreaches.1
            simp only
            omega
      case h_2 =>
        split
        · exact .nil
        · exact ih _

/-- The comments of a text stand in order and apart from each other. -/
theorem scan_pairwise (text : List Char) : (scan text).Pairwise Before := scanUpTo_pairwise _ _

theorem start_le_stop {text : List Char} (hcomment : comment ∈ scan text) :
    comment.loc.start ≤ comment.loc.stop :=
  (scanUpTo_reaches _ _ comment hcomment).2.2

end Comment

end Text

end RowScript
