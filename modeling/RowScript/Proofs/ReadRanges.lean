import Mathlib.Tactic.Order
import RowScript.Proofs.Comments

/-!
# The ranges that parsers read

Positions are linearly ordered, and a range covers the positions from its start to its
stop. A parser that succeeds is opened into the runs of its parts.
-/

namespace RowScript

open List

namespace Position

theorem le_total (a b : Position) : a ≤ b ∨ b ≤ a := by
  rw [le_iff_not_lt, le_iff_not_lt, lt_iff, lt_iff]
  omega

theorem le_antisymm {a b : Position} (hab : a ≤ b) (hba : b ≤ a) : a = b := by
  rw [le_iff_not_lt, lt_iff] at hab hba
  cases a
  cases b
  simp only [mk.injEq]
  simp only at hab hba
  omega

instance : DecidableLE Position := fun a b => inferInstanceAs (Decidable (¬b < a))

instance : LinearOrder Position where
  le_refl := le_refl
  le_trans _ _ _ := le_trans
  le_antisymm _ _ := le_antisymm
  le_total := le_total
  lt_iff_le_not_ge a b := by
    rw [le_iff_not_lt, le_iff_not_lt, lt_iff, lt_iff]
    omega
  toDecidableLE := inferInstance

theorem lt_advance (position : Position) (c : Char) : position < position.advance c := by
  rw [advance]
  split
  · exact .inl (Int.lt_succ _)
  · exact .inr ⟨rfl, Int.lt_succ _⟩

end Position

namespace Loc

/-- The range does not end before it starts. -/
def Ordered (loc : Loc) : Prop := loc.start ≤ loc.stop

/-- The first range is a range within the second. -/
structure Inside (inner outer : Loc) : Prop where
  start : outer.start ≤ inner.start
  ordered : inner.start ≤ inner.stop
  stop : inner.stop ≤ outer.stop

/-- There is something between the first range and the second. -/
def Before (a b : Loc) : Prop := a.stop < b.start

@[grind =]
theorem inside_iff {inner outer : Loc} :
    inner.Inside outer ↔
      outer.start ≤ inner.start ∧ inner.start ≤ inner.stop ∧ inner.stop ≤ outer.stop :=
  ⟨fun hinside => ⟨hinside.start, hinside.ordered, hinside.stop⟩,
    fun hinside => ⟨hinside.1, hinside.2.1, hinside.2.2⟩⟩

variable {a b loc : Loc}

@[grind =]
theorem before_iff : a.Before b ↔ a.stop < b.start := Iff.rfl

@[grind =]
theorem ordered_iff : loc.Ordered ↔ loc.start ≤ loc.stop := Iff.rfl

theorem Inside.refl (hordered : loc.Ordered) : loc.Inside loc :=
  ⟨le_refl _, hordered, le_refl _⟩

theorem Inside.outer {inner outer : Loc} (hinside : inner.Inside outer) : outer.Ordered :=
  le_trans hinside.start (le_trans hinside.ordered hinside.stop)

theorem Inside.trans {c : Loc} (hab : a.Inside b) (hbc : b.Inside c) : a.Inside c :=
  ⟨le_trans hbc.start hab.start, hab.ordered, le_trans hab.stop hbc.stop⟩

/-- A range covers exactly the positions between its ends, both included. -/
theorem contains_iff (hordered : loc.Ordered) (position : Position) :
    loc.contains position.line position.column ↔
      loc.start ≤ position ∧ position ≤ loc.stop := by
  rw [Ordered, Position.le_iff_not_lt, Position.lt_iff] at hordered
  rw [Position.le_iff_not_lt, Position.le_iff_not_lt, Position.lt_iff, Position.lt_iff, contains]
  split
  · simp only [Bool.and_eq_true, decide_eq_true_eq]
    omega
  · split
    · simp only [decide_eq_true_eq]
      omega
    · split
      · simp only [decide_eq_true_eq]
        omega
      · simp only [Bool.and_eq_true, decide_eq_true_eq]
        omega

end Loc

namespace Text

theorem Cursor.le_skipBlanks (cursor : Cursor) :
    cursor.position ≤ cursor.skipBlanks.position := (Reaches.skipBlanks cursor).position

grind_pattern Cursor.le_skipBlanks => cursor.skipBlanks

theorem Cursor.position_lt_drop {n : Nat} {cursor : Cursor} (hn : n ≠ 0)
    (hahead : cursor.ahead ≠ []) : cursor.position < (cursor.drop n).position := by
  obtain ⟨m, rfl⟩ := Nat.exists_eq_succ_of_ne_zero hn
  have hnext : cursor.position < cursor.next.position := by
    rw [Cursor.next]
    split
    case h_1 hnil => exact absurd hnil hahead
    case h_2 => exact Position.lt_advance _ _
  exact lt_of_lt_of_le hnext (Cursor.Reaches.drop m cursor.next).position

namespace Parser

variable {α β : Type} {p : Parser α} {f : α → Parser β} {cursor rest : Cursor} {result : α}
  {values : List α}

@[simp]
theorem pure_eq_done {value : α} :
    (pure value : Parser α) cursor = .done result rest ↔ value = result ∧ cursor = rest := by
  show Outcome.done value cursor = _ ↔ _
  simp

@[simp]
theorem bind_eq_done {result : β} :
    (p >>= f) cursor = .done result rest ↔
      ∃ value middle, p cursor = .done value middle ∧ f value middle = .done result rest := by
  show Parser.bind p f cursor = _ ↔ _
  rw [Parser.bind]
  split <;> simp_all

@[simp]
theorem map_eq_done {g : α → β} {result : β} :
    (g <$> p) cursor = .done result rest ↔
      ∃ value, p cursor = .done value rest ∧ g value = result := by
  show (p >>= fun value => pure (g value)) cursor = _ ↔ _
  simp only [bind_eq_done, pure_eq_done]
  constructor
  · rintro ⟨value, middle, hp, rfl, rfl⟩
    exact ⟨value, hp, rfl⟩
  · rintro ⟨value, hp, rfl⟩
    exact ⟨value, rest, hp, rfl, rfl⟩

theorem of_orElse_eq_done {q : Parser α} (hdone : (p <|> q) cursor = .done result rest) :
    p cursor = .done result rest ∨ q cursor = .done result rest := by
  have hdone : Parser.orElse p (fun _ => q) cursor = .done result rest := hdone
  rw [Parser.orElse] at hdone
  split at hdone
  · split at hdone
    · exact absurd hdone (by simp)
    · exact .inr hdone
  · exact .inl hdone

@[simp]
theorem commit_eq_done : p.commit cursor = .done result rest ↔ p cursor = .done result rest := by
  rw [commit]
  split <;> simp_all

@[simp]
theorem located_eq_done {result : Loc × α} :
    p.located cursor = .done result rest ↔
      p cursor = .done result.2 rest ∧ result.1 = ⟨cursor.skipBlanks.position, rest.position⟩ := by
  obtain ⟨loc, value⟩ := result
  rw [located]
  split
  case h_1 found next hp =>
    simp only [Outcome.done.injEq, Prod.mk.injEq, hp]
    constructor
    · rintro ⟨⟨rfl, rfl⟩, rfl⟩
      exact ⟨⟨rfl, rfl⟩, rfl⟩
    · rintro ⟨⟨rfl, rfl⟩, rfl⟩
      exact ⟨⟨rfl, rfl⟩, rfl⟩
  case h_2 hp => simp [hp]
  case h_3 hp => simp [hp]

theorem optional_eq_done {result : Option α} (hdone : p.optional cursor = .done result rest) :
    (∃ value, result = some value ∧ p cursor = .done value rest) ∨
      (result = none ∧ rest = cursor.skipBlanks) := by
  rw [optional] at hdone
  split at hdone
  case h_1 value next hp =>
    obtain ⟨rfl, rfl⟩ := Outcome.done.inj hdone
    exact .inl ⟨value, rfl, hp⟩
  case h_2 =>
    obtain ⟨rfl, rfl⟩ := Outcome.done.inj hdone
    exact .inr ⟨rfl, rfl⟩
  case h_3 => cases hdone

theorem token_eq_done {read : List Char → Option (α × Nat)}
    (hdone : token read cursor = .done result rest) :
    ∃ length, read cursor.skipBlanks.ahead = some (result, length) ∧
      rest = cursor.skipBlanks.drop length := by
  rw [token] at hdone
  split at hdone
  case h_1 value length hread =>
    obtain ⟨rfl, rfl⟩ := Outcome.done.inj hdone
    exact ⟨length, hread, rfl⟩
  case h_2 => cases hdone

theorem noKeyword_eq_done {spellings : List String} {result : Unit}
    (hdone : noKeyword spellings cursor = .done result rest) : rest = cursor := by
  rw [noKeyword] at hdone
  split at hdone
  · cases hdone
  · exact (Outcome.done.inj hdone).2.symm

/-- The values that a parser gives one after the other, from one cursor to another. -/
inductive Chained (p : Parser α) : Cursor → List α → Cursor → Prop where
  | nil (cursor : Cursor) : Chained p cursor [] cursor
  | cons {cursor middle rest : Cursor} {value : α} {values : List α} :
      p cursor = .done value middle → Chained p middle values rest →
        Chained p cursor (value :: values) rest

theorem chained_of_manyUpTo {n : Nat} (hdone : manyUpTo p n cursor = .done values rest) :
    Chained p cursor values rest := by
  induction n generalizing cursor values with
  | zero =>
    obtain ⟨rfl, rfl⟩ := pure_eq_done.1 hdone
    exact .nil cursor
  | succ n ih =>
    rw [manyUpTo] at hdone
    dsimp only at hdone
    split at hdone
    case h_1 =>
      obtain ⟨rfl, rfl⟩ := Outcome.done.inj hdone
      exact .nil cursor
    case h_2 => cases hdone
    case h_3 value middle hp =>
      split at hdone
      case h_1 others last hothers =>
        obtain ⟨rfl, rfl⟩ := Outcome.done.inj hdone
        exact .cons hp (ih hothers)
      case h_2 => cases hdone
      case h_3 => cases hdone

theorem chained_of_many (hdone : many p cursor = .done values rest) :
    Chained p cursor values rest := chained_of_manyUpTo hdone

theorem chained_of_manyOrBlanks (hdone : manyOrBlanks p cursor = .done values rest) :
    Chained p cursor values rest ∨ (values = [] ∧ rest = cursor.skipBlanks) := by
  rw [manyOrBlanks] at hdone
  split at hdone
  case h_1 =>
    obtain ⟨rfl, rfl⟩ := Outcome.done.inj hdone
    exact .inr ⟨rfl, rfl⟩
  case h_2 => exact .inl (chained_of_many hdone)

theorem exists_of_run {text : List Char} {value : α} (hrun : p.run text = .ok value) :
    ∃ rest, p (.start text) = .done value rest := by
  rw [run] at hrun
  split at hrun
  case h_1 found rest hdone =>
    split at hrun
    · exact ⟨rest, Except.ok.inj hrun ▸ hdone⟩
    · cases hrun
  case h_2 => cases hrun
  case h_3 => cases hrun

end Parser

end Text

end RowScript
