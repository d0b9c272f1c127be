import Mathlib.Data.List.Forall2
import RowScript.Text.Parser

/-!
# What parsers read

What a parser does is said up to leading blanks: `Parser.Reads` takes the characters ahead of it
before and after, and `Parser.Refuses` says that it fails on them without being fatal.
-/

namespace RowScript.Text

open List

variable {spelling : String}

/-- The characters behind leading blanks. -/
def skipped (text : List Char) : List Char := text.dropWhile isBlank

@[simp]
theorem skipped_nil : skipped [] = [] := rfl

variable {c : Char}

theorem skipped_cons_of_isBlank {text : List Char} (hblank : isBlank c) :
    skipped (c :: text) = skipped text :=
  dropWhile_cons_of_pos hblank

theorem skipped_cons_of_not_isBlank {text : List Char} (hblank : isBlank c = false) :
    skipped (c :: text) = c :: text :=
  dropWhile_cons_of_neg (by simp [hblank])

theorem skipped_skipped (text : List Char) : skipped (skipped text) = skipped text := by
  induction text with
  | nil => rfl
  | cons c text ih =>
    cases hblank : isBlank c with
    | true => rw [skipped_cons_of_isBlank hblank, ih]
    | false =>
      rw [skipped_cons_of_not_isBlank hblank, skipped_cons_of_not_isBlank hblank]

/-- The number of characters that are no blanks. Every token has at least one. -/
def width (text : List Char) : Nat := text.countP fun c => !isBlank c

theorem width_skipped (text : List Char) : width (skipped text) = width text := by
  induction text with
  | nil => rfl
  | cons c text ih =>
    cases hblank : isBlank c with
    | true =>
      rw [skipped_cons_of_isBlank hblank, ih]
      simp [width, hblank]
    | false => rw [skipped_cons_of_not_isBlank hblank]

theorem width_le_length (text : List Char) : width text ≤ text.length := countP_le_length

@[simp]
theorem width_nil : width [] = 0 := rfl

theorem width_cons (c : Char) (text : List Char) :
    width (c :: text) = width text + if isBlank c then 0 else 1 := by
  cases hblank : isBlank c <;> simp [width, hblank]

@[simp]
theorem width_append (a b : List Char) : width (a ++ b) = width a + width b := countP_append

namespace Cursor

theorem ahead_drop (n : Nat) (cursor : Cursor) : (cursor.drop n).ahead = cursor.ahead.drop n := by
  induction n generalizing cursor with
  | zero => rfl
  | succ n ih =>
    rw [drop, ih]
    cases hahead : cursor.ahead with
    | nil | cons c rest => simp [next, hahead]

theorem ahead_skipBlanks (cursor : Cursor) : cursor.skipBlanks.ahead = skipped cursor.ahead := by
  rw [skipBlanks, dropWhile, ahead_drop, skipped]
  induction cursor.ahead with
  | nil => rfl
  | cons c text ih =>
    cases hblank : isBlank c with
    | true => simp [hblank, ih]
    | false => simp [hblank]

end Cursor

namespace Parser

variable {α β : Type} {p q : Parser α} {f : α → Parser β} {before middle after : List Char}
  {P : α → Prop} {Q : β → Prop} {g : α → β}

/-- From the characters `before` the parser reads up to `after`, with a value that has
the property. -/
def Reads (p : Parser α) (before after : List Char) (P : α → Prop) : Prop :=
  ∀ cursor : Cursor, skipped cursor.ahead = skipped before →
    ∃ value next, p cursor = .done value next ∧ skipped next.ahead = skipped after ∧ P value

/-- The parser fails on the characters, and an alternative may be tried. -/
def Refuses (p : Parser α) (before : List Char) : Prop :=
  ∀ cursor : Cursor, skipped cursor.ahead = skipped before → ∃ offset, p cursor = .failed offset

theorem Reads.of_skipped (hskipped : skipped before = skipped middle)
    (hp : p.Reads middle after P) : p.Reads before after P :=
  fun cursor hcursor => hp cursor (hcursor.trans hskipped)

theorem Reads.imp {P' : α → Prop} (hp : p.Reads before after P) (himp : ∀ a, P a → P' a) :
    p.Reads before after P' := by
  intro cursor hcursor
  obtain ⟨value, next, hrun, hnext, hvalue⟩ := hp cursor hcursor
  exact ⟨value, next, hrun, hnext, himp value hvalue⟩

theorem Reads.pure {value : α} (hvalue : P value) : (pure value : Parser α).Reads after after P :=
  fun cursor hcursor => ⟨value, cursor, rfl, hcursor, hvalue⟩

theorem Reads.bind (hp : p.Reads before middle P)
    (hf : ∀ value, P value → (f value).Reads middle after Q) : (p >>= f).Reads before after Q := by
  intro cursor hcursor
  obtain ⟨value, next, hrun, hnext, hvalue⟩ := hp cursor hcursor
  obtain ⟨result, last, hrun', hlast, hresult⟩ := hf value hvalue next hnext
  refine ⟨result, last, ?_, hlast, hresult⟩
  show Parser.bind p f cursor = _
  rw [Parser.bind, hrun]
  exact hrun'

theorem Refuses.bind (hp : p.Refuses before) : (p >>= f).Refuses before := by
  intro cursor hcursor
  obtain ⟨offset, hrun⟩ := hp cursor hcursor
  refine ⟨offset, ?_⟩
  show Parser.bind p f cursor = _
  rw [Parser.bind, hrun]

/-- The first part is read and the second one is not there. -/
theorem Reads.refuses_bind (hp : p.Reads before middle P)
    (hf : ∀ value, P value → (f value).Refuses middle) : (p >>= f).Refuses before := by
  intro cursor hcursor
  obtain ⟨value, next, hrun, hnext, hvalue⟩ := hp cursor hcursor
  obtain ⟨offset, hrun'⟩ := hf value hvalue next hnext
  refine ⟨offset, ?_⟩
  show Parser.bind p f cursor = _
  rw [Parser.bind, hrun]
  exact hrun'

theorem Reads.map (hp : p.Reads before after fun value => Q (g value)) :
    (g <$> p).Reads before after Q :=
  hp.bind fun _ hvalue => Reads.pure hvalue

theorem Refuses.map (hp : p.Refuses before) : (g <$> p).Refuses before :=
  Refuses.bind hp

theorem Reads.orElse (hp : p.Reads before after P) : (p <|> q).Reads before after P := by
  intro cursor hcursor
  obtain ⟨value, next, hrun, hnext, hvalue⟩ := hp cursor hcursor
  refine ⟨value, next, ?_, hnext, hvalue⟩
  show Parser.orElse p (fun _ => q) cursor = _
  rw [Parser.orElse, hrun]

theorem Refuses.orElse_reads (hp : p.Refuses before) (hq : q.Reads before after P) :
    (p <|> q).Reads before after P := by
  intro cursor hcursor
  obtain ⟨offset, hrun⟩ := hp cursor hcursor
  obtain ⟨value, next, hrun', hnext, hvalue⟩ := hq cursor hcursor
  refine ⟨value, next, ?_, hnext, hvalue⟩
  show Parser.orElse p (fun _ => q) cursor = _
  rw [Parser.orElse, hrun]
  simp only [hrun']

theorem Refuses.orElse (hp : p.Refuses before) (hq : q.Refuses before) :
    (p <|> q).Refuses before := by
  intro cursor hcursor
  obtain ⟨offset, hrun⟩ := hp cursor hcursor
  obtain ⟨offset', hrun'⟩ := hq cursor hcursor
  refine ⟨max offset offset', ?_⟩
  show Parser.orElse p (fun _ => q) cursor = _
  rw [Parser.orElse, hrun]
  simp only [hrun']

theorem Reads.located (hp : p.Reads before after P) :
    p.located.Reads before after fun value => P value.2 := by
  intro cursor hcursor
  obtain ⟨value, next, hrun, hnext, hvalue⟩ := hp cursor hcursor
  exact ⟨_, next, by rw [Parser.located, hrun], hnext, hvalue⟩

theorem Reads.located_bind {f : Loc × α → Parser β} (hp : p.Reads before after P)
    (hf : ∀ loc value, P value → (f (loc, value)).Reads after after Q) :
    (p.located >>= f).Reads before after Q :=
  hp.located.bind fun value hvalue => hf value.1 value.2 hvalue

theorem Refuses.located (hp : p.Refuses before) : p.located.Refuses before := by
  intro cursor hcursor
  obtain ⟨offset, hrun⟩ := hp cursor hcursor
  exact ⟨offset, by rw [Parser.located, hrun]⟩

theorem Reads.commit (hp : p.Reads before after P) : p.commit.Reads before after P := by
  intro cursor hcursor
  obtain ⟨value, next, hrun, hnext, hvalue⟩ := hp cursor hcursor
  exact ⟨value, next, by rw [Parser.commit, hrun], hnext, hvalue⟩

theorem Reads.optional (hp : p.Reads before after P) :
    p.optional.Reads before after fun found => ∃ value, found = some value ∧ P value := by
  intro cursor hcursor
  obtain ⟨value, next, hrun, hnext, hvalue⟩ := hp cursor hcursor
  exact ⟨some value, next, by rw [Parser.optional, hrun], hnext, value, rfl, hvalue⟩

theorem Refuses.optional (hp : p.Refuses after) :
    p.optional.Reads after after fun found => found = none := by
  intro cursor hcursor
  obtain ⟨offset, hrun⟩ := hp cursor hcursor
  refine ⟨none, cursor.skipBlanks, by rw [Parser.optional, hrun], ?_, rfl⟩
  rw [Cursor.ahead_skipBlanks, skipped_skipped, hcursor]

theorem Reads.token {read : List Char → Option (α × Nat)} {value : α} {n : Nat}
    (hread : read (skipped before) = some (value, n)) (hafter : (skipped before).drop n = after) :
    (token read).Reads before after fun found => found = value := by
  intro cursor hcursor
  refine ⟨value, cursor.skipBlanks.drop n, ?_, ?_, rfl⟩
  · simp only [Parser.token, Cursor.ahead_skipBlanks, hcursor, hread]
  · rw [Cursor.ahead_drop, Cursor.ahead_skipBlanks, hcursor, hafter]

theorem Refuses.token {read : List Char → Option (α × Nat)}
    (hread : read (skipped before) = none) : (token read).Refuses before := by
  intro cursor hcursor
  refine ⟨cursor.skipBlanks.offset, ?_⟩
  simp only [Parser.token, Cursor.ahead_skipBlanks, hcursor, hread]

theorem Reads.oneOf {value : α} (hbefore : skipped before = spelling.toList ++ after) :
    (oneOf [(spelling, value)]).Reads before after fun found => found = value := by
  apply Reads.token (n := spelling.length)
  · have hstart : spelling.toList.isPrefixOf (skipped before) := by
      rw [hbefore]
      exact isPrefixOf_iff_prefix.mpr (prefix_append ..)
    simp [hstart]
  · rw [hbefore, ← String.length_toList, drop_left]

theorem Refuses.oneOf {value : α} (hbefore : spelling.toList.isPrefixOf (skipped before) = false) :
    (oneOf [(spelling, value)]).Refuses before := by
  apply Refuses.token
  simp [hbefore]

theorem Reads.symbol (hbefore : skipped before = spelling.toList ++ after) :
    (symbol spelling).Reads before after fun _ => True :=
  (Reads.oneOf hbefore).imp fun _ _ => trivial

theorem Refuses.symbol (hbefore : spelling.toList.isPrefixOf (skipped before) = false) :
    (symbol spelling).Refuses before :=
  Refuses.oneOf hbefore

/-- A word ends where no character of its class follows. -/
theorem Reads.word {p : Char → Bool} {spelling : List Char} (hne : spelling ≠ [])
    (hspelling : ∀ c ∈ spelling, p c) (hbefore : skipped before = spelling ++ after)
    (hafter : ∀ c, after.head? = some c → p c = false) :
    (word p).Reads before after fun found => found = String.ofList spelling := by
  cases spelling with
  | nil => exact absurd rfl hne
  | cons c tail =>
    rw [forall_mem_cons] at hspelling
    have htake : (tail ++ after).takeWhile p = tail := by
      rw [takeWhile_append_of_pos hspelling.2]
      cases after with
      | nil => simp
      | cons d rest => simp [hafter d rfl]
    rw [Parser.word, Parser.wordOf]
    apply Reads.token (n := tail.length + 1)
    · simp [hbefore, hspelling.1, htake]
    · simp [hbefore]

theorem Refuses.word {p : Char → Bool}
    (hbefore : ∀ c, (skipped before).head? = some c → p c = false) : (word p).Refuses before := by
  rw [Parser.word, Parser.wordOf]
  apply Refuses.token
  cases hskipped : skipped before with
  | nil => rfl
  | cons c rest => simp [hbefore c (by rw [hskipped]; rfl)]

variable {ι : Type} {text : ι → List Char} {means : ι → α → Prop}

theorem Reads.manyUpTo {items : List ι} (hstop : p.Refuses after)
    (hitems : ∀ item ∈ items, ∀ rest : List ι,
      p.Reads (text item ++ (rest.flatMap text ++ after)) (rest.flatMap text ++ after) (means item))
    {n : Nat} (hn : items.length ≤ n) :
    (manyUpTo p n).Reads (items.flatMap text ++ after) after (Forall₂ means items) := by
  induction items generalizing n with
  | nil =>
    cases n with
    | zero => exact Reads.pure .nil
    | succ n =>
      intro cursor hcursor
      obtain ⟨offset, hrun⟩ := hstop cursor hcursor
      exact ⟨[], cursor, by simp only [Parser.manyUpTo, hrun], hcursor, .nil⟩
  | cons item rest ih =>
    rw [forall_mem_cons] at hitems
    cases n with
    | zero => simp at hn
    | succ n =>
      intro cursor hcursor
      rw [flatMap_cons, append_assoc] at hcursor
      obtain ⟨value, next, hrun, hnext, hvalue⟩ := hitems.1 rest cursor hcursor
      obtain ⟨values, last, hrun', hlast, hvalues⟩ :=
        ih hitems.2 (Nat.le_of_succ_le_succ hn) next hnext
      refine ⟨value :: values, last, ?_, hlast, .cons hvalue hvalues⟩
      simp only [Parser.manyUpTo, hrun, hrun']

/-- Items that are read one after the other, none of them empty, are read all. -/
theorem Reads.many {items : List ι} (hstop : p.Refuses after)
    (hitems : ∀ item ∈ items, ∀ rest : List ι,
      p.Reads (text item ++ (rest.flatMap text ++ after)) (rest.flatMap text ++ after) (means item))
    (hwidth : ∀ item ∈ items, 0 < width (text item)) :
    p.many.Reads (items.flatMap text ++ after) after (Forall₂ means items) := by
  intro cursor hcursor
  have hlength : items.length ≤ cursor.ahead.length := by
    have hle : items.length ≤ width (items.flatMap text) := by
      clear hitems hcursor
      induction items with
      | nil => simp
      | cons item rest ih =>
        rw [forall_mem_cons] at hwidth
        have hrest := ih hwidth.2
        simp only [length_cons, flatMap_cons, width_append]
        omega
    calc items.length ≤ width (items.flatMap text) := hle
      _ ≤ width (items.flatMap text ++ after) := by simp
      _ = width cursor.ahead := by rw [← width_skipped, ← hcursor, width_skipped]
      _ ≤ cursor.ahead.length := width_le_length _
  exact Reads.manyUpTo hstop hitems hlength cursor hcursor

theorem Reads.run (hp : p.Reads before [] P) : ∃ value, p.run before = .ok value ∧ P value := by
  obtain ⟨value, next, hrun, hnext, hvalue⟩ := hp (.start before) rfl
  refine ⟨value, ?_, hvalue⟩
  have hend : next.skipBlanks.ahead = [] := by rw [Cursor.ahead_skipBlanks, hnext, skipped_nil]
  simp [Parser.run, hrun, hend]

end Parser

end RowScript.Text
