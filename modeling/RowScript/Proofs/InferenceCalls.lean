import RowScript.Inference
import RowScript.Proofs.Copies

/-!
# How deep inference goes

A local declaration of a value is inlined, so inference asks about terms that are larger than the
written one. By induction on the written part, every chain of questions that starts at it ends if
those that start at the copies do.
-/

namespace RowScript

open List Term

namespace Term

/-- The terms that inference of a term may ask about. -/
def calls : Term → List Term
  | .reference .. | .boolean _ | .number _ | .string _ | .unit _ | .emptyRecord _ => []
  | .function _ body none _ => [body]
  | .function param body (some _) loc => [body, .function param body none loc]
  | .application func arg _ => [func, arg]
  | .conditional condition consequence alternative _ => [condition, consequence, alternative]
  | .letIn name value body _ _ =>
    if value.isValue then [body.replace name value, value] else [value, body]
  | .recordExtend key value record loc => [record, .recordRestrict key record loc, value]
  | .recordRestrict _ record _ | .fieldAccess _ record _ => [record]
  | .array elements _ => elements

/-- Every chain of calls that starts at a term ends. -/
def Ends (term : Term) : Prop := Acc (fun called caller => called ∈ caller.calls) term

variable {term : Term}

theorem ends_of_calls (hcalls : ∀ called ∈ term.calls, called.Ends) : term.Ends :=
  Acc.intro term hcalls

theorem ends_function {param : Option Param} {body : Term} (hbody : body.Ends)
    (ascribed : Option Ty) (loc : Loc) : (Term.function param body ascribed loc).Ends := by
  have hplain : (function param body none loc).Ends :=
    ends_of_calls (by simpa [calls] using hbody)
  cases ascribed with
  | none => exact hplain
  | some ascribed => exact ends_of_calls (by simpa [calls] using ⟨hbody, hplain⟩)

theorem ends_recordExtend {key : String} {value record : Term} (hvalue : value.Ends)
    (hrecord : record.Ends) (loc : Loc) : (Term.recordExtend key value record loc).Ends := by
  have hrestrict : (recordRestrict key record loc).Ends :=
    ends_of_calls (by simpa [calls] using hrecord)
  exact ends_of_calls (by simpa [calls] using ⟨hrecord, hrestrict, hvalue⟩)

/-- Calls from a term with copies in it end if the calls from the copies do. -/
theorem ends_fill {scope : List String} {copies : Copies} (hapart : term.bindsApart scope)
    (hnames : ∀ n ∈ term.freeNames, n ∈ scope) (hcopies : copies.Within scope Ends) :
    (term.fill copies).Ends := by
  induction term using induct generalizing scope copies with
  | reference name loc =>
    rw [fill]
    cases hcopy : copies name with
    | none => exact ends_of_calls (by simp [calls])
    | some copy => exact (hcopies name copy hcopy).1
  | boolean | number | string | unit | emptyRecord => exact ends_of_calls (by simp [fill, calls])
  | function param body ascribed loc ih =>
    rw [bindsApart, Bool.and_eq_true] at hapart
    refine ends_function (ih hapart.2 (mem_scope_of_body hnames) ?_) ascribed loc
    exact (hcopies.without _).mono fun n hn => mem_append_right _ hn
  | application a b loc iha ihb =>
    simp only [bindsApart, Bool.and_eq_true, freeNames, forall_mem_append] at hapart hnames
    have ha := iha hapart.1 hnames.1 hcopies
    have hb := ihb hapart.2 hnames.2 hcopies
    exact ends_of_calls (by simpa [fill, calls] using ⟨ha, hb⟩)
  | recordExtend key a b loc iha ihb =>
    simp only [bindsApart, Bool.and_eq_true, freeNames, forall_mem_append] at hapart hnames
    exact ends_recordExtend (iha hapart.1 hnames.1 hcopies) (ihb hapart.2 hnames.2 hcopies) loc
  | conditional a b c loc iha ihb ihc =>
    simp only [bindsApart, Bool.and_eq_true, freeNames, forall_mem_append] at hapart hnames
    have ha := iha hapart.1.1 hnames.1.1 hcopies
    have hb := ihb hapart.1.2 hnames.1.2 hcopies
    have hc := ihc hapart.2 hnames.2 hcopies
    exact ends_of_calls (by simpa [fill, calls] using ⟨ha, hb, hc⟩)
  | recordRestrict key a loc ih | fieldAccess key a loc ih =>
    have ha := ih hapart hnames hcopies
    exact ends_of_calls (by simpa [fill, calls] using ha)
  | array elements loc ih =>
    rw [fill, fillAll_eq_map]
    refine ends_of_calls fun called hcalled => ?_
    obtain ⟨element, helement, rfl⟩ := mem_map.mp hcalled
    refine ih element helement (bindApart_iff.mp hapart element helement) ?_ hcopies
    exact fun n hn => hnames n (mem_freeNamesIn.mpr ⟨element, helement, hn⟩)
  | letIn name value body nameLoc loc ihvalue ihbody =>
    simp only [bindsApart, Bool.and_eq_true, Bool.not_eq_true', contains_eq_mem,
      decide_eq_false_iff_not] at hapart
    have hvalueNames : ∀ n ∈ value.freeNames, n ∈ scope :=
      fun n hn => hnames n (mem_append_left _ hn)
    have hvalue : (value.fill copies).Ends := ihvalue hapart.1.2 hvalueNames hcopies
    have hinside : (copies.without (· = name)).Within (name :: scope) Ends :=
      (hcopies.without _).mono fun n hn => mem_cons_of_mem _ hn
    have hbodyNames := mem_scope_of_declared hnames
    rw [fill]
    apply ends_of_calls
    rw [calls]
    split
    · -- the value is copied to where its name stood, next to the copies already there
      have hinlined : (body.fill ((copies.without (· = name)).insert name
          (value.fill copies))).Ends := by
        refine ihbody hapart.2 hbodyNames (hinside.insert hvalue fun n hn => ?_)
        exact mem_cons_of_mem _ (hcopies.freeNames_fill hvalueNames n hn)
      rw [hcopies.replace_fill hapart.1.1]
      simpa using ⟨hinlined, hvalue⟩
    · simpa using ⟨hvalue, ihbody hapart.2 hbodyNames hinside⟩

/-- Chains of calls that start at a term have at most a number of terms. -/
def EndsWithin : Nat → Term → Prop
  | 0, _ => False
  | depth + 1, term => ∀ called ∈ term.calls, EndsWithin depth called

theorem EndsWithin.mono {depth larger : Nat} (hends : term.EndsWithin depth)
    (hle : depth ≤ larger) : term.EndsWithin larger := by
  induction depth generalizing term larger with
  | zero => cases hends
  | succ depth ih =>
    obtain ⟨larger, rfl⟩ : ∃ less, larger = less + 1 := ⟨larger - 1, by omega⟩
    exact fun called hcalled => ih (hends called hcalled) (by omega)

theorem exists_endsWithin_all {terms : List Term}
    (hterms : ∀ term ∈ terms, ∃ depth, term.EndsWithin depth) :
    ∃ depth, ∀ term ∈ terms, term.EndsWithin depth := by
  induction terms with
  | nil => exact ⟨0, by simp⟩
  | cons term rest ih =>
    rw [forall_mem_cons] at hterms
    obtain ⟨depth, hterm⟩ := hterms.1
    obtain ⟨others, hrest⟩ := ih hterms.2
    refine ⟨max depth others, forall_mem_cons.mpr ⟨?_, fun other hother => ?_⟩⟩
    · exact EndsWithin.mono hterm (Nat.le_max_left _ _)
    · exact EndsWithin.mono (hrest other hother) (Nat.le_max_right _ _)

/-- A term calls finitely many others, so chains that end are bounded. -/
theorem Ends.exists_endsWithin (hends : term.Ends) : ∃ depth, term.EndsWithin depth := by
  induction hends with
  | intro term _ ih =>
    obtain ⟨depth, hdepth⟩ := exists_endsWithin_all ih
    exact ⟨depth + 1, hdepth⟩

theorem Ends.not_chain (hends : term.Ends) (chain : Nat → Term) (hstart : chain 0 = term) :
    ¬ ∀ i, chain (i + 1) ∈ (chain i).calls := by
  induction hends generalizing chain with
  | intro term _ ih =>
    subst hstart
    intro hchain
    exact ih (chain 1) (hchain 0) (fun i => chain (i + 1)) rfl fun i => hchain (i + 1)

end Term

namespace Inference

variable {solve solve' : Context → Term → CheckM Solved} {term : Term}

theorem mapM_congr {α β : Type} {f g : α → CheckM β} {as : List α} (hfg : ∀ a ∈ as, f a = g a) :
    as.mapM f = as.mapM g := by
  induction as with
  | nil => rfl
  | cons a rest ih =>
    rw [forall_mem_cons] at hfg
    rw [mapM_cons, mapM_cons, hfg.1, ih hfg.2]

/-- One level of inference asks about no other terms than the calls. -/
theorem step_congr (hcalls : ∀ called ∈ term.calls, ∀ ctx, solve ctx called = solve' ctx called)
    (ctx : Context) : step solve ctx term = step solve' ctx term := by
  cases term with
  | reference | boolean | number | string | unit | emptyRecord => rfl
  | function param body ascribed loc =>
    cases ascribed with
    | none =>
      simp only [calls, forall_mem_singleton] at hcalls
      simp only [step, function, hcalls]
    | some ascribed =>
      simp only [calls, forall_mem_cons] at hcalls
      simp only [step, ascribedFunction, hcalls.1, hcalls.2.1]
  | application func arg loc =>
    simp only [calls, forall_mem_cons] at hcalls
    simp only [step, hcalls.1, hcalls.2.1]
  | conditional condition consequence alternative loc | recordExtend key value record loc =>
    simp only [calls, forall_mem_cons] at hcalls
    simp only [step, hcalls.1, hcalls.2.1, hcalls.2.2.1]
  | letIn name value body nameLoc loc =>
    cases hvalue : value.isValue with
    | true =>
      simp only [calls, hvalue, if_true, forall_mem_cons] at hcalls
      simp only [step, hvalue, if_true, hcalls.1, hcalls.2.1]
    | false =>
      simp only [calls, hvalue, Bool.false_eq_true, if_false, forall_mem_cons]
        at hcalls
      simp only [step, hvalue, Bool.false_eq_true, if_false, hcalls.1, hcalls.2.1]
  | recordRestrict key record loc | fieldAccess key record loc =>
    simp only [calls, forall_mem_singleton] at hcalls
    simp only [step, hcalls]
  | array elements loc =>
    have hsolved : elements.mapM (solve ctx) = elements.mapM (solve' ctx) :=
      mapM_congr fun element helement => hcalls element helement ctx
    simp only [step, hsolved]

/-- Inference that goes down a number of levels and leaves what is further down to `below`. -/
def inferAbove (below : Context → Term → CheckM Inferred) (fuel : Nat) :
    Nat → Context → Term → CheckM Inferred
  | 0 => below
  | depth + 1 => step (solveWith (fuel + depth) (inferAbove below fuel depth))

theorem inferAbove_infer (fuel depth : Nat) :
    inferAbove (infer fuel) fuel depth = infer (fuel + depth) := by
  induction depth with
  | zero => rfl
  | succ depth ih =>
    funext ctx term
    rw [inferAbove, ih, ← Nat.add_assoc, infer]

/-- What is further down than any chain of calls does not matter. -/
theorem inferAbove_congr {below below' : Context → Term → CheckM Inferred} {fuel depth : Nat}
    (hends : term.EndsWithin depth) (ctx : Context) :
    inferAbove below fuel depth ctx term = inferAbove below' fuel depth ctx term := by
  induction depth generalizing term ctx with
  | zero => cases hends
  | succ depth ih =>
    refine step_congr (fun called hcalled ctx => ?_) ctx
    simp only [solveWith, ih (hends called hcalled)]

end Inference

/-- If the names that a term binds are distinct, and distinct from its free names, then no chain
of calls of inference that starts at the term goes on for ever. There is a depth such that
inference is the same whatever is done further down, in every context and with any fuel. -/
theorem infer_calls_end (term : Term) (hdistinct : term.binders.Nodup)
    (hfree : ∀ name ∈ term.binders, name ∉ term.freeNames) :
    (∀ chain : Nat → Term, chain 0 = term → ¬ ∀ i, chain (i + 1) ∈ (chain i).calls) ∧
      ∃ depth, ∀ fuel below ctx,
        Inference.inferAbove below fuel depth ctx term = infer (fuel + depth) ctx term := by
  have hapart := bindsApart_of_nodup term hdistinct hfree
  have hends : (term.fill .empty).Ends := ends_fill hapart (fun _ hn => hn) .empty
  rw [fill_empty] at hends
  refine ⟨hends.not_chain, ?_⟩
  obtain ⟨depth, hdepth⟩ := hends.exists_endsWithin
  refine ⟨depth, fun fuel below ctx => ?_⟩
  rw [← Inference.inferAbove_infer, Inference.inferAbove_congr hdepth]

/-- A function that calls another one twice: `y => f(f(y))`. -/
def twiceTerm (param function : String) : Term :=
  .function (some ⟨param, .synthetic⟩)
    (.application (.reference function .synthetic)
      (.application (.reference function .synthetic) (.reference param .synthetic) .synthetic)
      .synthetic) none .synthetic

/-- Three declarations of which each is copied twice into the next one. -/
def doublingTerm : Term :=
  .letIn "f" (.function (some ⟨"x", .synthetic⟩) (.reference "x" .synthetic) none .synthetic)
    (.letIn "g" (twiceTerm "y" "f")
      (.letIn "h" (twiceTerm "z" "g") (twiceTerm "w" "h") .synthetic .synthetic)
      .synthetic .synthetic)
    .synthetic .synthetic

/-- Inference of the declarations ends although inlining makes them grow. -/
theorem infer_calls_end_doubling :
    doublingTerm.binders = ["f", "x", "g", "y", "h", "z", "w"] ∧ doublingTerm.freeNames = [] ∧
      (∀ chain : Nat → Term, chain 0 = doublingTerm → ¬ ∀ i, chain (i + 1) ∈ (chain i).calls) ∧
      ∃ depth, ∀ fuel below ctx, Inference.inferAbove below fuel depth ctx doublingTerm =
        infer (fuel + depth) ctx doublingTerm :=
  ⟨rfl, rfl, infer_calls_end doublingTerm (by decide) (by decide)⟩

end RowScript
