import RowScript.Checker.Basic
import Mathlib.Logic.Relator

/-!
# Two runs side by side

Two runs of a checker accord when they both succeed with results that go together, or both fail with
faults of the same kind at the same place, fuel and letters permitting. Placeholders of the two are
paired as they are handed out.
-/

namespace RowScript

/-- Faults that may end one of two runs and not the other. -/
def Fault.Excused (fault : Fault) : Prop :=
  fault.cause = .outOfFuel ∨ fault.cause = .outOfTypeVariables

/-- Faults of the same kind at the same place. The second is not for lack of fuel if the first
is not. -/
def Fault.Matches (fault other : Fault) : Prop :=
  fault.cause.kind = other.cause.kind ∧ fault.loc = other.loc ∧
    (other.cause = .outOfFuel → fault.cause = .outOfFuel)

/-- Pairs of placeholders that two runs have handed out, each at most once. -/
structure Pairing (holes : Nat → Nat → Prop) (counter counter' : Nat) : Prop where
  unique : Relator.BiUnique holes
  bounded : ∀ i j, holes i j → i ≤ counter ∧ j ≤ counter'

namespace Pairing

variable {holes : Nat → Nat → Prop} {counter counter' later : Nat}

theorem none (counter counter' : Nat) : Pairing (fun _ _ => False) counter counter' :=
  ⟨⟨fun _ _ _ hij => hij.elim, fun _ _ _ hij => hij.elim⟩, fun _ _ hij => hij.elim⟩

variable (hpairing : Pairing holes counter counter')

include hpairing

theorem left (hle : counter ≤ later) : Pairing holes later counter' :=
  ⟨hpairing.unique, fun i j hij =>
    ⟨Nat.le_trans (hpairing.bounded i j hij).1 hle, (hpairing.bounded i j hij).2⟩⟩

theorem right (hle : counter' ≤ later) : Pairing holes counter later :=
  ⟨hpairing.unique, fun i j hij =>
    ⟨(hpairing.bounded i j hij).1, Nat.le_trans (hpairing.bounded i j hij).2 hle⟩⟩

/-- The placeholders handed out next are paired. -/
theorem fresh :
    Pairing (fun i j => holes i j ∨ (i = counter + 1 ∧ j = counter' + 1)) (counter + 1)
      (counter' + 1) := by
  have hbounded := hpairing.bounded
  refine ⟨⟨?_, ?_⟩, ?_⟩
  · rintro i k j (hij | ⟨rfl, rfl⟩) (hkj | ⟨rfl, hj⟩)
    · exact hpairing.unique.1 hij hkj
    · have := hbounded _ _ hij
      omega
    · have := hbounded _ _ hkj
      omega
    · rfl
  · rintro i j k (hij | ⟨rfl, rfl⟩) (hik | ⟨hi, rfl⟩)
    · exact hpairing.unique.2 hij hik
    · have := hbounded _ _ hij
      omega
    · have := hbounded _ _ hik
      omega
    · rfl
  · rintro i j (hij | ⟨rfl, rfl⟩)
    · have := hbounded _ _ hij
      omega
    · omega

end Pairing

section Outcomes

variable {α β : Type} {outcome : EStateM.Result Fault Checker α}
  {outcome' : EStateM.Result Fault Checker β} {P : α → Checker → β → Checker → Prop}

/-- Outcomes of two runs that go together. -/
def Accords (P : α → Checker → β → Checker → Prop) :
    EStateM.Result Fault Checker α → EStateM.Result Fault Checker β → Prop
  | .ok a final, .ok b final' => P a final b final'
  | .error fault _, .error other _ => fault.Matches other ∨ fault.Excused ∨ other.Excused
  | .error fault _, .ok _ _ => fault.Excused
  | .ok _ _, .error other _ => other.Excused

/-- A run that ended with a fault of a certain kind. -/
def Fails (p : Fault → Prop) : EStateM.Result Fault Checker α → Prop
  | .ok _ _ => False
  | .error fault _ => p fault

/-- A run that ended for lack of fuel or of letters. -/
abbrev IsExcused : EStateM.Result Fault Checker α → Prop := Fails Fault.Excused

/-- A run that ended for lack of fuel. -/
abbrev RunsOut : EStateM.Result Fault Checker α → Prop := Fails fun fault =>
  fault.cause = .outOfFuel

theorem Fails.imp {p q : Fault → Prop} (hfails : Fails p outcome)
    (himp : ∀ fault, p fault → q fault) : Fails q outcome := by
  cases outcome with
  | ok => exact hfails
  | error fault => exact himp fault hfails

theorem not_fails_of_ok {p : Fault → Prop} {a : α} {final : Checker}
    (hrun : outcome = .ok a final) : ¬Fails p outcome := by
  rw [hrun]
  exact not_false

theorem not_runsOut_of_letters {fault : Fault} (hletters : fault.cause = .outOfTypeVariables)
    (final : Checker) : ¬RunsOut (.error fault final : EStateM.Result Fault Checker α) :=
  fun hout => nomatch hout.symm.trans hletters

theorem accords_left (hexcused : IsExcused outcome) : Accords P outcome outcome' := by
  cases outcome with
  | ok => cases hexcused
  | error =>
    cases outcome' with
    | ok => exact hexcused
    | error => exact .inr (.inl hexcused)

theorem accords_right (hexcused : IsExcused outcome') : Accords P outcome outcome' := by
  cases outcome' with
  | ok => cases hexcused
  | error =>
    cases outcome with
    | ok => exact hexcused
    | error => exact .inr (.inr hexcused)

theorem Accords.imp {Q : α → Checker → β → Checker → Prop} (haccords : Accords P outcome outcome')
    (himp : ∀ a c b d, P a c b d → Q a c b d) : Accords Q outcome outcome' := by
  cases outcome with
  | ok a c =>
    cases outcome' with
    | ok b d => exact himp a c b d haccords
    | error => exact haccords
  | error =>
    cases outcome' with
    | ok | error => exact haccords

/-- The same for computations that can only fail, and not for lack of fuel. -/
def ExceptAccords (P : α → β → Prop) : Except Fault α → Except Fault β → Prop
  | .ok a, .ok b => P a b
  | .error fault, .error other =>
    fault.Matches other ∨ fault.Excused ∨ other.cause = .outOfTypeVariables
  | .error fault, .ok _ => fault.Excused
  | .ok _, .error other => other.cause = .outOfTypeVariables

/-- Runs with more and more fuel come to an outcome. All that have enough fuel end in it, and
those that have less do so as well or run out. -/
structure ComesTo (runs : Nat → EStateM.Result Fault Checker α)
    (outcome : EStateM.Result Fault Checker α) : Prop where
  ends : ¬RunsOut outcome
  only : ∀ fuel, runs fuel = outcome ∨ RunsOut (runs fuel)
  enough : ∃ enough, ∀ fuel ≥ enough, runs fuel = outcome

namespace ComesTo

theorem const (hends : ¬RunsOut outcome) : ComesTo (fun _ => outcome) outcome :=
  ⟨hends, fun _ => .inl rfl, 0, fun _ _ => rfl⟩

theorem of_ok {runs : Nat → EStateM.Result Fault Checker α} {fuel : Nat} {a : α} {final : Checker}
    (hcomes : ComesTo runs outcome) (hrun : runs fuel = .ok a final) :
    ∃ enough, ∀ fuel ≥ enough, runs fuel = .ok a final := by
  rw [← hrun, (hcomes.only fuel).resolve_right (not_fails_of_ok hrun)]
  exact hcomes.enough

theorem succ {runs : Nat → EStateM.Result Fault Checker α}
    (hcomes : ComesTo (fun n => runs (n + 1)) outcome) (hzero : RunsOut (runs 0)) :
    ComesTo runs outcome := by
  obtain ⟨enough, henough⟩ := hcomes.enough
  refine ⟨hcomes.ends, fun fuel => ?_, enough + 1, fun fuel hfuel => ?_⟩
  · cases fuel with
    | zero => exact .inr hzero
    | succ fuel => exact hcomes.only fuel
  · obtain ⟨less, rfl⟩ : ∃ less, fuel = less + 1 := ⟨fuel - 1, by omega⟩
    exact henough less (by omega)

end ComesTo

section Bind

variable {start middle : Checker} {x : CheckM α} {f : α → CheckM β} {y : Nat → CheckM α}
  {g : Nat → α → CheckM β}

theorem bind_of_ok {a : α} (hrun : x start = .ok a middle) : (x >>= f) start = f a middle := by
  show EStateM.bind x f start = _
  rw [EStateM.bind, hrun]

theorem bind_of_error {fault : Fault} (hrun : x start = .error fault middle) :
    (x >>= f) start = .error fault middle := by
  show EStateM.bind x f start = _
  rw [EStateM.bind, hrun]

theorem Fails.bind {p : Fault → Prop} (hfails : Fails p (x start)) :
    Fails p ((x >>= f) start) := by
  cases hrun : x start with
  | ok => simp [hrun, Fails] at hfails
  | error =>
    rw [bind_of_error hrun]
    rwa [hrun] at hfails

theorem ComesTo.bind {a : α} (hy : ComesTo (y · start) (.ok a middle))
    (hg : ComesTo (g · a middle) outcome') : ComesTo (fun n => (y n >>= g n) start) outcome' := by
  obtain ⟨enough, henough⟩ := hy.enough
  obtain ⟨enough', henough'⟩ := hg.enough
  refine ⟨hg.ends, fun fuel => ?_, max enough enough', fun fuel hfuel => ?_⟩
  · rcases hy.only fuel with hrun | hout
    · rw [bind_of_ok hrun]
      exact hg.only fuel
    · exact .inr hout.bind
  · rw [bind_of_ok (henough fuel (by omega))]
    exact henough' fuel (by omega)

theorem ComesTo.bind_error {fault : Fault} (hy : ComesTo (y · start) (.error fault middle)) :
    ComesTo (fun n => (y n >>= g n) start) (.error fault middle) := by
  obtain ⟨enough, henough⟩ := hy.enough
  exact ⟨hy.ends, fun fuel => (hy.only fuel).imp bind_of_error Fails.bind, enough,
    fun fuel hfuel => bind_of_error (henough fuel hfuel)⟩

end Bind

end Outcomes

/-- Results of two runs that go together. The pairs stay, and others may be added. -/
def Linked {α β : Type} (holes : Nat → Nat → Prop) (P : (Nat → Nat → Prop) → α → β → Prop) (a : α)
    (final : Checker) (b : β) (final' : Checker) : Prop :=
  ∃ more, (∀ i j, holes i j → more i j) ∧ Pairing more final.counter final'.counter ∧ P more a b

/-- A run accords with runs that have more and more fuel, from any two checkers whose
placeholders are paired: unless it ends for lack of fuel or of letters, they come to an outcome
that goes with its own. -/
def Accord {α β : Type} (holes : Nat → Nat → Prop) (P : (Nat → Nat → Prop) → α → β → Prop)
    (x : CheckM α) (y : Nat → CheckM β) : Prop :=
  ∀ ⦃start start' : Checker⦄, Pairing holes start.counter start'.counter →
    IsExcused (x start) ∨ ∃ outcome, ComesTo (y · start') outcome ∧
      Accords (Linked holes P) (x start) outcome

section Accord

variable {α β γ δ : Type} {holes : Nat → Nat → Prop} {P : (Nat → Nat → Prop) → α → β → Prop}
  {Q : (Nat → Nat → Prop) → γ → δ → Prop} {x : Except Fault α} {y : Except Fault β}
  {f : α → CheckM γ} {g : Nat → β → CheckM δ}

/-- The outcomes go together whatever the fuel. -/
theorem Accord.accords {x : CheckM α} {y : Nat → CheckM β} {start start' : Checker}
    (hx : Accord holes P x y) (hpairing : Pairing holes start.counter start'.counter) (fuel : Nat) :
    Accords (Linked holes P) (x start) (y fuel start') := by
  rcases hx hpairing with hexcused | ⟨outcome, hcomes, haccords⟩
  · exact accords_left hexcused
  · rcases hcomes.only fuel with hrun | hout
    · rwa [hrun]
    · exact accords_right (hout.imp fun _ => .inl)

theorem Accord.bind {x : CheckM α} {y : Nat → CheckM β} (hx : Accord holes P x y)
    (hf : ∀ more, (∀ i j, holes i j → more i j) → Relator.BiUnique more → ∀ a b, P more a b →
      Accord more Q (f a) (g · b)) : Accord holes Q (x >>= f) fun n => y n >>= g n := by
  intro start start' hpairing
  obtain hexcused | ⟨outcome, hcomes, hfirst⟩ := hx hpairing
  · exact .inl hexcused.bind
  · cases hrun : x start with
    | error fault middle =>
      rw [bind_of_error hrun]
      rw [hrun] at hfirst
      cases outcome with
      | ok => exact .inl hfirst
      | error => exact .inr ⟨_, hcomes.bind_error, hfirst⟩
    | ok a middle =>
      rw [bind_of_ok hrun]
      rw [hrun] at hfirst
      cases outcome with
      | error => exact .inr ⟨_, hcomes.bind_error, accords_right hfirst⟩
      | ok b middle' =>
        obtain ⟨more, hmore, hpairing', hab⟩ := hfirst
        refine (hf more hmore hpairing'.unique a b hab hpairing').imp id ?_
        rintro ⟨outcome, hcomes', hsecond⟩
        refine ⟨outcome, hcomes.bind hcomes', hsecond.imp ?_⟩
        rintro _ _ _ _ ⟨all, hall, hpairing'', hresult⟩
        exact ⟨all, fun i j hij => hall i j (hmore i j hij), hpairing'', hresult⟩

theorem accord_const {x : CheckM α} {y : CheckM β}
    (hxy : ∀ ⦃start start' : Checker⦄, Pairing holes start.counter start'.counter →
      (RunsOut (y start') → IsExcused (x start)) ∧
        Accords (Linked holes P) (x start) (y start')) : Accord holes P x fun _ => y := by
  intro start start' hpairing
  obtain ⟨hout, haccords⟩ := hxy hpairing
  by_cases hends : RunsOut (y start')
  · exact .inl (hout hends)
  · exact .inr ⟨_, .const hends, haccords⟩

/-- The second run ends at once without fuel. -/
theorem Accord.succ {x : CheckM α} {y : Nat → CheckM β} (hx : Accord holes P x (y <| · + 1))
    (hzero : ∀ start, RunsOut (y 0 start)) : Accord holes P x y := fun _ start' hpairing =>
  (hx hpairing).imp id fun ⟨outcome, hcomes, haccords⟩ =>
    ⟨outcome, hcomes.succ (hzero start'), haccords⟩

/-- The second run has one step more than it needs. -/
theorem Accord.later {x : CheckM α} {y : Nat → CheckM β} (hx : Accord holes P x y) :
    Accord holes P x (y <| · + 1) := fun _ _ hpairing =>
  (hx hpairing).imp id fun ⟨outcome, hcomes, haccords⟩ =>
    ⟨outcome, ⟨hcomes.ends, fun fuel => hcomes.only (fuel + 1), hcomes.enough.imp fun _ henough
      fuel hfuel => henough (fuel + 1) (Nat.le_succ_of_le hfuel)⟩, haccords⟩

theorem accord_pure {a : α} {b : β} (hab : P holes a b) :
    Accord holes P (pure a) fun _ => pure b :=
  accord_const fun _ _ hpairing => ⟨False.elim, holes, fun _ _ hij => hij, hpairing, hab⟩

theorem accord_ofExcept (haccords : ExceptAccords (P holes) x y) :
    Accord holes P (CheckM.ofExcept x) fun _ => CheckM.ofExcept y := by
  refine accord_const fun start start' hpairing => ?_
  cases x with
  | ok a =>
    cases y with
    | ok b => exact ⟨False.elim, holes, fun _ _ hij => hij, hpairing, haccords⟩
    | error other =>
      exact ⟨fun hout => absurd hout (not_runsOut_of_letters haccords _), .inr haccords⟩
  | error fault =>
    cases y with
    | ok b => exact ⟨False.elim, haccords⟩
    | error other =>
      obtain hmatches | hexcused | hletters := haccords
      · exact ⟨fun hout => .inl (hmatches.2.2 hout), .inl hmatches⟩
      · exact ⟨fun _ => hexcused, .inr (.inl hexcused)⟩
      · exact ⟨fun hout => absurd hout (not_runsOut_of_letters hletters _),
          .inr (.inr (.inr hletters))⟩

theorem accord_throw {fault other : Fault} (hmatches : fault.Matches other) :
    Accord holes P (throw fault) fun _ => throw other :=
  accord_const fun _ _ _ => ⟨fun hout => .inl (hmatches.2.2 hout), .inl hmatches⟩

theorem accord_freshHole :
    Accord holes (fun more i j => more i j) CheckM.freshHole fun _ => CheckM.freshHole :=
  accord_const fun _ _ hpairing =>
    ⟨False.elim, _, fun _ _ hij => .inl hij, hpairing.fresh, .inr ⟨rfl, rfl⟩⟩

/-- A computation that can only fail hands out no placeholders. -/
theorem accord_ofExcept_bind {R : α → β → Prop} (haccords : ExceptAccords R x y)
    (hf : ∀ a b, R a b → Accord holes Q (f a) (g · b)) :
    Accord holes Q (CheckM.ofExcept x >>= f) fun n => CheckM.ofExcept y >>= g n := by
  cases x with
  | ok a =>
    cases y with
    | ok b => exact hf a b haccords
    | error other =>
      exact fun _ _ _ => .inr ⟨.error other _, .const (not_runsOut_of_letters haccords _),
        accords_right (.inr haccords)⟩
  | error fault =>
    cases y with
    | ok b => exact fun _ _ _ => .inl haccords
    | error other =>
      have hthrow : Accord holes Q (CheckM.ofExcept (.error fault)) fun _ =>
        CheckM.ofExcept (.error other) := accord_ofExcept haccords
      exact hthrow

theorem accord_ofStamped_bind {x : Stamped α} {y : Stamped β}
    (hf : ∀ a b, Accord holes Q (f a) (g · b)) :
    Accord holes Q (CheckM.ofStamped x >>= f) fun n => CheckM.ofStamped y >>= g n :=
  fun start start' hpairing => hf (x start.stamp).1 (y start'.stamp).1 hpairing

theorem accord_modify_pure {f g : Checker → Checker} {a : α} {b : β}
    (hf : ∀ known, (f known).counter = known.counter)
    (hg : ∀ known, (g known).counter = known.counter) (hab : P holes a b) :
    Accord holes P (do modify f; pure a) fun _ => (do modify g; pure b) := by
  intro start start' hpairing
  have hkept : Pairing holes (f start).counter (g start').counter := by
    rw [hf, hg]
    exact hpairing
  exact accord_pure hab hkept

/-- Runs that one side makes on its own: they come to a result. -/
def Alone (P : α → Prop) (x : Nat → CheckM α) : Prop :=
  ∀ start, ∃ a final, ComesTo (x · start) (.ok a final) ∧ start.counter ≤ final.counter ∧ P a

theorem alone_pure {P : α → Prop} {a : α} (ha : P a) : Alone P fun _ => pure a :=
  fun start => ⟨a, start, .const not_false, Nat.le_refl _, ha⟩

theorem Alone.succ {P : α → Prop} {x : Nat → CheckM α} (hx : Alone P (x <| · + 1))
    (hzero : ∀ start, RunsOut (x 0 start)) : Alone P x := fun start =>
  let ⟨a, final, hcomes, hresult⟩ := hx start
  ⟨a, final, hcomes.succ (hzero start), hresult⟩

theorem Accord.bind_left {P : α → Prop} {x : Nat → CheckM α} {y : Nat → CheckM δ} (hx : Alone P x)
    (fuel : Nat) (hf : ∀ a, P a → Accord holes Q (f a) y) : Accord holes Q (x fuel >>= f) y := by
  intro start start' hpairing
  obtain ⟨a, middle, hcomes, hle, ha⟩ := hx start
  obtain hrun | hout := hcomes.only fuel
  · rw [bind_of_ok hrun]
    exact hf a ha (hpairing.left hle)
  · exact .inl (hout.bind.imp fun _ => .inl)

theorem Accord.bind_right {P : β → Prop} {x : CheckM γ} {y : Nat → CheckM β} (hy : Alone P y)
    (hg : ∀ b, P b → Accord holes Q x (g · b)) : Accord holes Q x fun n => y n >>= g n := by
  intro start start' hpairing
  obtain ⟨b, middle, hcomes, hle, hb⟩ := hy start'
  refine (hg b hb (hpairing.right hle)).imp id ?_
  rintro ⟨outcome, hcomes', haccords⟩
  exact ⟨outcome, hcomes.bind hcomes', haccords⟩

theorem Fault.matches_refl (fault : Fault) : fault.Matches fault := ⟨rfl, rfl, id⟩

theorem exceptAccords_same {P : α → α → Prop} (hP : ∀ a, x = .ok a → P a a) :
    ExceptAccords P x x := by
  cases x with
  | ok a => exact hP a rfl
  | error fault => exact .inl fault.matches_refl

theorem ExceptAccords.imp {P R : α → β → Prop} (hx : ExceptAccords P x y)
    (himp : ∀ a b, P a b → R a b) : ExceptAccords R x y := by
  cases x with
  | ok a =>
    cases y with
    | ok b => exact himp a b hx
    | error other => exact hx
  | error fault =>
    cases y with
    | ok | error => exact hx

theorem exceptAccords_of_letters {P : α → β → Prop}
    (hx : ∀ fault, x = .error fault → fault.cause = .outOfTypeVariables)
    (hy : ∀ fault, y = .error fault → fault.cause = .outOfTypeVariables)
    (hP : ∀ a b, x = .ok a → y = .ok b → P a b) : ExceptAccords P x y := by
  cases x with
  | ok a =>
    cases y with
    | ok b => exact hP a b rfl rfl
    | error other => exact hy other rfl
  | error fault =>
    cases y with
    | ok b => exact .inr (hx fault rfl)
    | error other => exact .inr (.inl (.inr (hx fault rfl)))

theorem ExceptAccords.bind {P : α → β → Prop} {Q : γ → δ → Prop} {f : α → Except Fault γ}
    {g : β → Except Fault δ} (hx : ExceptAccords P x y)
    (hf : ∀ a b, P a b → ExceptAccords Q (f a) (g b)) : ExceptAccords Q (x >>= f) (y >>= g) := by
  cases x with
  | ok a =>
    cases y with
    | ok b => exact hf a b hx
    | error other =>
      show ExceptAccords Q (f a) (.error other)
      cases f a with
      | ok c => exact hx
      | error fault => exact .inr (.inr hx)
  | error fault =>
    cases y with
    | ok b =>
      show ExceptAccords Q (.error fault) (g b)
      cases g b with
      | ok d => exact hx
      | error other => exact .inr (.inl hx)
    | error other => exact hx

end Accord

end RowScript
