import RowScript.Proofs.TermRanges
import RowScript.Proofs.Typing
import RowScript.Symbol

/-!
# Where a search for a symbol leads

The names written in a term are its marks. At the start of a mark's range a search finds what the
mark's name stands for, except in the fields of an object after the first one.
-/

namespace RowScript

open Term List

variable {place : Place}

namespace Finder

variable {finder : Finder} {ctx : Context} {func arg : Term} {loc : Loc}

theorem search_recordExtend {key : String} {value record : Term}
    (hrecord : ∀ loc, record ≠ .emptyRecord loc) :
    search finder ctx (.recordExtend key value record loc) =
      if finder.isAt loc then
        if finder.isAt record.loc then search finder ctx record else search finder ctx value
      else none := by
  cases record with
  | emptyRecord loc => exact absurd rfl (hrecord loc)
  | _ => simp only [search]

theorem search_application (hfunc : ∀ name callee, func ≠ .reference name callee) :
    search finder ctx (.application func arg loc) =
      if finder.isAt loc then
        if finder.isAt func.loc then search finder ctx func else search finder ctx arg
      else none := by
  cases func with
  | reference name callee => exact absurd rfl (hfunc name callee)
  | _ => simp only [search]

theorem search_application_arg (hfunc : finder.isAt func.loc = false) :
    search finder ctx (.application func arg loc) =
      if finder.isAt loc then search finder ctx arg else none := by
  cases func with
  | _ => simp [search, hfunc]

end Finder

/-- A name written in a term, with the context in which a search looks it up. A mark that
is not open is one that the search does not come to. -/
structure Mark where
  kind : SymbolKind
  name : String
  loc : Loc
  ctx : Context
  isOpen : Bool

namespace Term

/-- Whether the term is an object with the given range, so that another field of the same
object is added to it. -/
def extendsIn (loc : Loc) : Term → Bool
  | .recordExtend _ _ _ own => own = loc
  | _ => false

mutual

/-- The names written in a term. What arithmetic stands for is not written down. -/
def marks (ctx : Context) (isOpen : Bool) : Term → List Mark
  | .reference name loc =>
    if loc = .synthetic then [] else [⟨.variableUsage, name, loc, ctx, isOpen⟩]
  | .function (some param) body _ _ =>
    ⟨.functionArgument, param.name, param.loc, ctx, isOpen⟩ :: marks ctx isOpen body
  | .function none body _ _ => marks ctx isOpen body
  | .application func arg _ => marks ctx isOpen func ++ marks ctx isOpen arg
  | .letIn name value body nameLoc _ =>
    ⟨.variableDeclaration, name, nameLoc, ctx, isOpen⟩ ::
      (marks (Finder.innerContext ctx name) isOpen value ++ marks ctx isOpen body)
  | .conditional condition consequence alternative _ =>
    marks ctx isOpen condition ++ marks ctx isOpen consequence ++ marks ctx isOpen alternative
  | .recordExtend _ value record loc =>
    marks ctx isOpen record ++ marks ctx (isOpen && !record.extendsIn loc) value
  | .recordRestrict _ record _ | .fieldAccess _ record _ => marks ctx isOpen record
  | .array elements _ => marksAll ctx isOpen elements
  | .boolean _ | .number _ | .string _ | .unit _ | .emptyRecord _ => []

/-- The names written in several terms. -/
def marksAll (ctx : Context) (isOpen : Bool) : List Term → List Mark
  | [] => []
  | term :: rest => marks ctx isOpen term ++ marksAll ctx isOpen rest

end

variable {ctx : Context} {isOpen : Bool} {mark : Mark} {terms : List Term} {P : Mark → Prop}
  {a b : List Mark} {lo hi : Position} {loc : Loc} {term : Term}

theorem mem_marksAll :
    mark ∈ marksAll ctx isOpen terms ↔ ∃ term ∈ terms, mark ∈ term.marks ctx isOpen := by
  induction terms with
  | nil => simp [marksAll]
  | cons term rest ih => simp [marksAll, ih]

theorem exists_mark_left (hmark : ∃ mark ∈ a, P mark) : ∃ mark ∈ a ++ b, P mark := by
  obtain ⟨mark, hmark, hP⟩ := hmark
  exact ⟨mark, mem_append_left b hmark, hP⟩

theorem exists_mark_right (hmark : ∃ mark ∈ b, P mark) : ∃ mark ∈ a ++ b, P mark := by
  obtain ⟨mark, hmark, hP⟩ := hmark
  exact ⟨mark, mem_append_right a hmark, hP⟩

theorem AllLaid.exists_laid (hlaid : AllLaid lo hi terms) :
    ∀ term ∈ terms, ∃ start stop, lo ≤ start ∧ stop ≤ hi ∧ term.Laid .part start stop := by
  induction terms generalizing lo with
  | nil => simp
  | cons term rest ih =>
    obtain ⟨stop, start, h₁, h₂, h₃, hterm, hrest⟩ := hlaid
    refine forall_mem_cons.mpr ⟨⟨lo, stop, le_refl _, h₂, hterm⟩, fun found hfound => ?_⟩
    obtain ⟨first, last, hfirst, hlast⟩ := ih hrest found hfound
    exact ⟨first, last, le_trans h₃ hfirst, hlast⟩

theorem mark_inside (term : Term) (hlaid : term.Laid place lo hi)
    (hmark : mark ∈ term.marks ctx isOpen) : mark.loc.Inside ⟨lo, hi⟩ := by
  induction term using induct generalizing place lo hi ctx isOpen with
  | reference name loc =>
    rw [Laid] at hlaid
    rw [marks] at hmark
    grind
  | function param body _ loc ih =>
    obtain ⟨hinside, start, hstart, hparam, hbody⟩ := hlaid
    cases param with
    | none =>
      have := ih hbody hmark
      grind
    | some param =>
      rw [marks, mem_cons] at hmark
      obtain rfl | hmark := hmark
      · grind
      · have := ih hbody hmark
        grind
  | application func arg loc ihfunc iharg =>
    obtain ⟨hinside, stop, start, h₁, h₂, h₃, hfunc, harg⟩ := hlaid
    rw [marks, mem_append] at hmark
    have := hmark.imp (ihfunc hfunc) (iharg harg)
    grind
  | letIn name value body nameLoc loc ihvalue ihbody =>
    obtain ⟨-, hinside, start, stop, next, h₁, h₂, h₃, h₄, hvalue, hbody⟩ := hlaid
    rw [marks, mem_cons, mem_append] at hmark
    have := hmark.imp_right (Or.imp (ihvalue hvalue) (ihbody hbody))
    grind
  | conditional condition consequence alternative loc ihcondition ihconsequence ihalternative =>
    obtain ⟨hinside, first, start, stop, last, h₁, h₂, h₃, h₄, h₅, h₆, hcondition, hconsequence,
      halternative⟩ := hlaid
    rw [marks, mem_append, mem_append] at hmark
    have := hmark.imp (Or.imp (ihcondition hcondition) (ihconsequence hconsequence))
      (ihalternative halternative)
    grind
  | recordExtend key value record loc ihvalue ihrecord =>
    rw [marks, mem_append] at hmark
    obtain ⟨-, stop, start, h₁, h₂, h₃, hrecord, hvalue⟩ |
      ⟨hinside, stop, start, h₁, h₂, h₃, hrecord, hvalue⟩ := hlaid
    all_goals
      have := hmark.imp (ihrecord hrecord) (ihvalue hvalue)
      grind
  | recordRestrict _ record loc ih | fieldAccess _ record loc ih =>
    rw [Laid] at hlaid
    have := ih hlaid.2 hmark
    grind
  | array elements loc ih =>
    rw [Laid] at hlaid
    obtain ⟨element, helement, hmark⟩ := mem_marksAll.mp hmark
    obtain ⟨start, stop, hstart, hstop, helementLaid⟩ := hlaid.2.exists_laid element helement
    have := ih element helement helementLaid hmark
    grind
  | boolean | number | string | unit | emptyRecord => cases hmark

theorem mark_inside_all (terms : List Term) (hlaid : AllLaid lo hi terms)
    (hmark : mark ∈ marksAll ctx isOpen terms) : mark.loc.Inside ⟨lo, hi⟩ := by
  obtain ⟨term, hterm, hmark⟩ := mem_marksAll.mp hmark
  obtain ⟨start, stop, hstart, hstop, htermLaid⟩ := hlaid.exists_laid term hterm
  have := mark_inside term htermLaid hmark
  grind

theorem not_isOpen_of_mem_marks (term : Term) (hmark : mark ∈ term.marks ctx false) :
    mark.isOpen = false := by
  induction term using induct generalizing ctx with
  | reference name loc =>
    rw [marks] at hmark
    grind
  | function param body _ _ ih =>
    cases param with
    | none => exact ih hmark
    | some param =>
      obtain rfl | hmark := mem_cons.mp hmark
      · rfl
      · exact ih hmark
  | application _ _ _ iha ihb | recordExtend _ _ _ _ ihb iha =>
    exact (mem_append.mp hmark).elim iha ihb
  | letIn _ value body _ _ ihvalue ihbody =>
    obtain rfl | hmark := mem_cons.mp hmark
    · rfl
    · exact (mem_append.mp hmark).elim ihvalue ihbody
  | conditional _ _ _ _ iha ihb ihc =>
    exact (mem_append.mp hmark).elim (fun hmark => (mem_append.mp hmark).elim iha ihb) ihc
  | recordRestrict _ _ _ ih | fieldAccess _ _ _ ih => exact ih hmark
  | array elements _ ih =>
    obtain ⟨element, helement, hmark⟩ := mem_marksAll.mp hmark
    exact ih element helement hmark
  | boolean | number | string | unit | emptyRecord => cases hmark

/-- What a field of an object is added to is a part, unless it is the same object. -/
theorem Laid.part_of_record (hlaid : term.Laid (.record loc) lo hi)
    (hextends : term.extendsIn loc = false) (hrecord : ∀ loc, term ≠ .emptyRecord loc) :
    term.Laid .part lo hi := by
  cases term <;> grind [Laid, extendsIn]

theorem loc_of_extendsIn (hextends : term.extendsIn loc) : term.loc = loc := by
  cases term <;> simp_all [extendsIn, Term.loc]

/-- The range of a mark in a part lies in the range of the part. -/
theorem mark_inside_loc (hlaid : term.Laid .part lo hi) (hmark : mark ∈ term.marks ctx isOpen) :
    mark.loc.Inside term.loc := by
  obtain ⟨name, rfl⟩ | hlaid := hlaid.tight
  · simp [marks] at hmark
  · exact mark_inside term hlaid hmark

end Term

namespace Finder

/-- A search at a position. -/
def ofPosition (position : Position)
    (instantiations : List (Loc × List (String × Ty))) : Finder :=
  ⟨position.line, position.column, instantiations⟩

variable {position : Position} {instantiations : List (Loc × List (String × Ty))} {finder : Finder}

theorem isAt_of_le {loc : Loc} (hstart : loc.start ≤ position) (hstop : position ≤ loc.stop) :
    (ofPosition position instantiations).isAt loc :=
  (Loc.contains_iff (le_trans hstart hstop) position).2 ⟨hstart, hstop⟩

theorem isAt_of_lt {loc : Loc} (hordered : loc.Ordered) (hstop : loc.stop < position) :
    (ofPosition position instantiations).isAt loc = false := by
  rw [Bool.eq_false_iff]
  intro hat
  have := ((Loc.contains_iff hordered position).1 hat).2
  order

theorem isAt_synthetic (horigin : .origin ≤ position) :
    (ofPosition position instantiations).isAt .synthetic = false := by
  refine isAt_of_lt (le_refl _) (lt_of_lt_of_le ?_ horigin)
  decide

theorem isAt_of_inside_of_lt {loc : Loc} {lo hi : Position} (hinside : loc.Inside ⟨lo, hi⟩)
    (hposition : hi < position) : (ofPosition position instantiations).isAt loc = false :=
  isAt_of_lt hinside.ordered (lt_of_le_of_lt hinside.stop hposition)

theorem isAt_loc_of_lt (horigin : .origin ≤ position) {lo hi : Position} {term : Term}
    (hlaid : term.Laid .part lo hi) (hposition : hi < position) :
    (ofPosition position instantiations).isAt term.loc = false := by
  obtain hsynthetic | hinside := hlaid.loc_inside
  · rw [hsynthetic]
    exact isAt_synthetic horigin
  · exact isAt_of_inside_of_lt hinside hposition

/-- Behind a term there is no symbol in it. A local declaration is entered all the same,
and so is an object from each of its fields. -/
theorem search_of_lt (horigin : .origin ≤ position) {place : Place} {lo hi : Position}
    (hposition : hi < position) (ctx : Context) (term : Term) (hlaid : term.Laid place lo hi)
    (hrecord : ∀ loc outer, term = .emptyRecord loc → place ≠ .record outer) :
    search (ofPosition position instantiations) ctx term = none := by
  cases term with
  | reference name loc =>
    rw [Laid] at hlaid
    obtain rfl | hinside := hlaid
    · simp [search, isAt_synthetic horigin]
    · simp [search, isAt_of_inside_of_lt hinside hposition]
  | letIn name value body nameLoc loc =>
    rw [Laid] at hlaid
    obtain ⟨-, hinside, start, stop, next, h₁, h₂, h₃, h₄, hvalue, hbody⟩ := hlaid
    have hbody := search_of_lt horigin hposition ctx body hbody (by simp)
    simp [search, isAt_of_inside_of_lt hinside hposition,
      isAt_loc_of_lt horigin hvalue (lt_of_le_of_lt h₃ hposition), hbody]
  | recordExtend key value record loc =>
    rw [Laid] at hlaid
    obtain ⟨-, stop, start, h₁, h₂, h₃, hrecordLaid, hvalue⟩ | ⟨hinside, -⟩ := hlaid
    · have hvalue := search_of_lt horigin hposition ctx value hvalue (by simp)
      cases record with
      | emptyRecord => simp [search, hvalue]
      | _ =>
        have hrecord := search_of_lt horigin (lt_of_le_of_lt h₂ hposition) ctx _
          hrecordLaid (by simp)
        simp only [search] at hrecord ⊢
        simp [hvalue, hrecord]
    · simp [search, isAt_of_inside_of_lt hinside hposition]
  | emptyRecord loc =>
    rw [Laid] at hlaid
    obtain ⟨outer, hplace⟩ | hinside := hlaid
    · exact absurd hplace (hrecord loc outer rfl)
    · simp [search, isAt_of_inside_of_lt hinside hposition]
  | unit loc => rw [search]
  | function | application | conditional | recordRestrict | fieldAccess | array =>
    rw [Laid] at hlaid
    simp [search, isAt_of_inside_of_lt hlaid.1 hposition]
  | boolean | number | string =>
    rw [Laid] at hlaid
    simp [search, isAt_of_inside_of_lt hlaid hposition]

/-- What a search finds at a mark: what the name stands for. A generic function that is
called is shown at the types it is called with. -/
def FindsMark (finder : Finder) (mark : Mark) (result : Option Symbol) : Prop :=
  if mark.isOpen then
    result = valueSymbol mark.ctx mark.kind mark.name ∨
      (mark.kind = .variableUsage ∧ ∃ callee,
        result = (valueSymbol mark.ctx mark.kind mark.name).map (finder.instantiated callee))
  else result = none

theorem isAt_start {mark : Mark} {loc : Loc} (hinside : mark.loc.Inside loc) :
    (ofPosition mark.loc.start instantiations).isAt loc :=
  isAt_of_le hinside.start (le_trans hinside.ordered hinside.stop)

/-- At the start of each mark of the term, the search leads to the mark. -/
def LeadsToMarks (instantiations : List (Loc × List (String × Ty))) (term : Term) : Prop :=
  ∀ {place : Place} {lo hi : Position} {ctx : Context} {mark : Mark}, .origin ≤ lo →
    term.Laid place lo hi → (∀ loc, place = .record loc → loc.start ≤ lo ∧ hi ≤ loc.stop) →
    mark ∈ term.marks ctx true →
    (ofPosition mark.loc.start instantiations).FindsMark mark
      (search (ofPosition mark.loc.start instantiations) ctx term)

section Marks

variable {lo hi : Position} {ctx : Context} {mark : Mark}
  {func arg condition consequence alternative body value record : Term} {loc : Loc}

theorem leadsToMarks_function (hbody : LeadsToMarks instantiations body) (param : Option Param)
    (ascribed : Option Ty) : LeadsToMarks instantiations (.function param body ascribed loc) := by
  intro place lo hi ctx mark horigin hlaid _ hmark
  obtain ⟨hloc, start, hstart, hparam, hlaid⟩ := hlaid
  cases param with
  | none =>
    have hinside := mark_inside body hlaid hmark
    rw [search, isAt_start (by grind), if_pos rfl]
    exact hbody (by grind) hlaid (by simp) hmark
  | some param =>
    have hparam := hparam param rfl
    rw [marks, mem_cons] at hmark
    obtain rfl | hmark := hmark
    · rw [search, isAt_start hparam.1, if_pos rfl]
      rw [isAt_of_le (le_refl _) hparam.1.ordered, if_pos rfl]
      exact .inl rfl
    · have hinside := mark_inside body hlaid hmark
      rw [search, isAt_start (by grind), if_pos rfl,
        isAt_of_lt hparam.1.ordered (by grind), if_neg (by simp)]
      exact hbody (by grind) hlaid (by simp) hmark

theorem leadsToMarks_application (hfunc : LeadsToMarks instantiations func)
    (harg : LeadsToMarks instantiations arg) :
    LeadsToMarks instantiations (.application func arg loc) := by
  intro place lo hi ctx mark horigin hlaid _ hmark
  obtain ⟨hloc, stop, start, h₁, h₂, h₃, hfuncLaid, hargLaid⟩ := hlaid
  rw [marks, mem_append] at hmark
  obtain hmark | hmark := hmark
  · have hinside := mark_inside func hfuncLaid hmark
    have hat : (ofPosition mark.loc.start instantiations).isAt func.loc :=
      isAt_start (mark_inside_loc hfuncLaid hmark)
    have hout : (ofPosition mark.loc.start instantiations).isAt loc :=
      isAt_start (by grind)
    by_cases hreference : ∃ name callee, func = .reference name callee
    · obtain ⟨name, callee, rfl⟩ := hreference
      rw [marks] at hmark
      split at hmark
      · cases hmark
      · obtain rfl := mem_singleton.1 hmark
        simp only [Term.loc] at hat hout
        exact .inr ⟨rfl, callee, by simp [search, Term.loc, hat, hout]⟩
    · rw [search_application fun name callee heq => hreference ⟨name, callee, heq⟩,
        hout, if_pos rfl, hat, if_pos rfl]
      exact hfunc (by grind) hfuncLaid (by simp) hmark
  · have hinside := mark_inside arg hargLaid hmark
    rw [search_application_arg (isAt_loc_of_lt (by grind) hfuncLaid (by grind)),
      isAt_start (by grind), if_pos rfl]
    exact harg (by grind) hargLaid (by simp) hmark

theorem leadsToMarks_letIn (hvalue : LeadsToMarks instantiations value)
    (hbody : LeadsToMarks instantiations body) (name : String) (nameLoc : Loc) :
    LeadsToMarks instantiations (.letIn name value body nameLoc loc) := by
  intro place lo hi ctx mark horigin hlaid _ hmark
  obtain ⟨-, hname, start, stop, next, h₁, h₂, h₃, h₄, hvalueLaid, hbodyLaid⟩ := hlaid
  rw [marks, mem_cons, mem_append] at hmark
  obtain rfl | hmark | hmark := hmark
  · rw [search, isAt_of_le (le_refl _) hname.ordered, if_pos rfl]
    exact .inl rfl
  · have hinside := mark_inside value hvalueLaid hmark
    rw [search, isAt_of_lt hname.ordered (by grind), if_neg (by simp),
      isAt_start (mark_inside_loc hvalueLaid hmark), if_pos rfl]
    exact hvalue (by grind) hvalueLaid (by simp) hmark
  · have hinside := mark_inside body hbodyLaid hmark
    rw [search, isAt_of_lt hname.ordered (by grind), if_neg (by simp),
      isAt_loc_of_lt (by grind) hvalueLaid (by grind), if_neg (by simp)]
    exact hbody (by grind) hbodyLaid (by simp) hmark

theorem leadsToMarks_conditional (hcondition : LeadsToMarks instantiations condition)
    (hconsequence : LeadsToMarks instantiations consequence)
    (halternative : LeadsToMarks instantiations alternative) :
    LeadsToMarks instantiations (.conditional condition consequence alternative loc) := by
  intro place lo hi ctx mark horigin hlaid _ hmark
  obtain ⟨hloc, first, start, stop, last, h₁, h₂, h₃, h₄, h₅, h₆, hfirstLaid, hthenLaid,
    helseLaid⟩ := hlaid
  rw [marks, mem_append, mem_append] at hmark
  obtain (hmark | hmark) | hmark := hmark
  · have hinside := mark_inside condition hfirstLaid hmark
    rw [search, isAt_start (by grind), if_pos rfl,
      isAt_start (mark_inside_loc hfirstLaid hmark), if_pos rfl]
    exact hcondition (by grind) hfirstLaid (by simp) hmark
  · have hinside := mark_inside consequence hthenLaid hmark
    rw [search, isAt_start (by grind), if_pos rfl,
      isAt_loc_of_lt (by grind) hfirstLaid (by grind), if_neg (by simp),
      isAt_start (mark_inside_loc hthenLaid hmark), if_pos rfl]
    exact hconsequence (by grind) hthenLaid (by simp) hmark
  · have hinside := mark_inside alternative helseLaid hmark
    rw [search, isAt_start (by grind), if_pos rfl,
      isAt_loc_of_lt (by grind) hfirstLaid (by grind), if_neg (by simp),
      isAt_loc_of_lt (by grind) hthenLaid (by grind), if_neg (by simp),
      isAt_start (mark_inside_loc helseLaid hmark), if_pos rfl]
    exact halternative (by grind) helseLaid (by simp) hmark

/-- A mark in what a field is added to lies in the range of that, which is the range of the
object itself if the field is not its first one. -/
theorem mark_inside_record {stop : Position} (hlaid : record.Laid (.record loc) lo stop)
    (hmark : mark ∈ record.marks ctx true) (hloc : mark.loc.Inside loc) :
    mark.loc.Inside record.loc := by
  cases hextends : record.extendsIn loc with
  | true => rwa [loc_of_extendsIn hextends]
  | false =>
    refine mark_inside_loc (hlaid.part_of_record hextends ?_) hmark
    rintro own rfl
    cases hmark

theorem leadsToMarks_recordExtend (hvalue : LeadsToMarks instantiations value)
    (hrecord : LeadsToMarks instantiations record) (key : String) :
    LeadsToMarks instantiations (.recordExtend key value record loc) := by
  intro place lo hi ctx mark horigin hlaid hplace hmark
  -- The fields lie in the range of the object, and so does the record they extend.
  obtain ⟨first, last, hfirst, hlast, horigin, stop, start, h₁, h₂, h₃, hrecordLaid, hvalueLaid⟩ :
      ∃ first last, loc.start ≤ first ∧ last ≤ loc.stop ∧ .origin ≤ first ∧
        ∃ stop start, stop < start ∧ stop ≤ last ∧ first ≤ start ∧
          record.Laid (.record loc) first stop ∧ value.Laid .part start last := by
    obtain ⟨rfl, hfields⟩ | ⟨hloc, hfields⟩ := hlaid
    · exact ⟨lo, hi, (hplace loc rfl).1, (hplace loc rfl).2, horigin, hfields⟩
    · exact ⟨loc.start, loc.stop, le_refl _, le_refl _, by grind, hfields⟩
  rw [marks, mem_append] at hmark
  obtain hmark | hmark := hmark
  · have hinside := mark_inside record hrecordLaid hmark
    have hne : ∀ loc, record ≠ .emptyRecord loc := by
      rintro own rfl
      cases hmark
    have hrange := mark_inside_record hrecordLaid hmark (by grind)
    rw [search_recordExtend hne, isAt_start (by grind), if_pos rfl, isAt_start hrange, if_pos rfl]
    exact hrecord horigin hrecordLaid (by grind) hmark
  · have hinside := mark_inside value hvalueLaid hmark
    by_cases hempty : ∃ loc, record = .emptyRecord loc
    · obtain ⟨own, rfl⟩ := hempty
      simp only [search]
      rw [isAt_start (by grind), if_pos rfl]
      exact hvalue (by grind) hvalueLaid (by simp) hmark
    · have hne : ∀ loc, record ≠ .emptyRecord loc := fun loc heq => hempty ⟨loc, heq⟩
      rw [search_recordExtend hne, isAt_start (by grind), if_pos rfl]
      cases hextends : record.extendsIn loc with
      | true =>
        -- The search enters the rest of the object instead, and finds nothing there.
        rw [hextends] at hmark
        have hclosed := not_isOpen_of_mem_marks value hmark
        rw [loc_of_extendsIn hextends, isAt_start (by grind), if_pos rfl, FindsMark,
          hclosed, if_neg (by simp)]
        exact search_of_lt (by grind) (by grind) ctx record hrecordLaid
          (fun loc outer heq => absurd heq (hne loc))
      | false =>
        rw [hextends] at hmark
        rw [isAt_loc_of_lt (by grind) (hrecordLaid.part_of_record hextends hne) (by grind),
          if_neg (by simp)]
        exact hvalue (by grind) hvalueLaid (by simp) hmark

theorem searchFirst_of_mem_marks (elements : List Term)
    (hleads : ∀ element ∈ elements, LeadsToMarks instantiations element) (horigin : .origin ≤ lo)
    (hlaid : AllLaid lo hi elements) (hmark : mark ∈ marksAll ctx true elements) :
    (ofPosition mark.loc.start instantiations).FindsMark mark
      (searchFirst (ofPosition mark.loc.start instantiations) ctx elements) := by
  induction elements generalizing lo with
  | nil => cases hmark
  | cons term rest ih =>
    rw [forall_mem_cons] at hleads
    obtain ⟨stop, start, h₁, h₂, h₃, hterm, hrest⟩ := hlaid
    rw [marksAll, mem_append] at hmark
    obtain hmark | hmark := hmark
    · rw [searchFirst, isAt_start (mark_inside_loc hterm hmark), if_pos rfl]
      exact hleads.1 horigin hterm (by simp) hmark
    · have hinside := mark_inside_all rest hrest hmark
      rw [searchFirst, isAt_loc_of_lt (by grind) hterm (by grind), if_neg (by simp)]
      exact ih hleads.2 (by grind) hrest hmark

/-- At the start of a mark the search leads to the mark. -/
theorem search_of_mem_marks (horigin : .origin ≤ lo) (term : Term) (hlaid : term.Laid place lo hi)
    (hplace : ∀ loc, place = .record loc → loc.start ≤ lo ∧ hi ≤ loc.stop)
    (hmark : mark ∈ term.marks ctx true) :
    (ofPosition mark.loc.start instantiations).FindsMark mark
      (search (ofPosition mark.loc.start instantiations) ctx term) := by
  suffices hleads : LeadsToMarks instantiations term from hleads horigin hlaid hplace hmark
  clear hmark hlaid
  induction term using induct with
  | reference name loc =>
    intro place lo hi ctx mark _ hlaid _ hmark
    have hinside := mark_inside _ hlaid hmark
    rw [marks] at hmark
    split at hmark
    · cases hmark
    · obtain rfl := mem_singleton.1 hmark
      rw [search, isAt_start (.refl hinside.ordered), if_pos rfl]
      exact .inl rfl
  | function param _ ascribed _ ih => exact leadsToMarks_function ih param ascribed
  | application _ _ _ ihfunc iharg => exact leadsToMarks_application ihfunc iharg
  | letIn name _ _ nameLoc _ ihvalue ihbody => exact leadsToMarks_letIn ihvalue ihbody name nameLoc
  | conditional _ _ _ _ iha ihb ihc => exact leadsToMarks_conditional iha ihb ihc
  | recordExtend key _ _ _ ihvalue ihrecord => exact leadsToMarks_recordExtend ihvalue ihrecord key
  | recordRestrict _ record _ ih | fieldAccess _ record _ ih =>
    intro place lo hi ctx mark horigin hlaid _ hmark
    rw [Laid] at hlaid
    rw [search, isAt_start (mark_inside record hlaid.2 hmark), if_pos rfl]
    exact ih (by grind) hlaid.2 (by simp) hmark
  | array elements loc ih =>
    intro place lo hi ctx mark horigin hlaid _ hmark
    rw [Laid] at hlaid
    rw [search, isAt_start (mark_inside_all elements hlaid.2 hmark), if_pos rfl]
    exact searchFirst_of_mem_marks elements ih (by grind) hlaid.2 hmark
  | boolean | number | string | unit | emptyRecord =>
    intro place lo hi ctx mark _ _ _ hmark
    cases hmark

end Marks

end Finder

end RowScript
