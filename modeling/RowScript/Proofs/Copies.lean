import RowScript.Proofs.Typing

/-!
# Terms with copies of values in them

The terms that inference comes to are parts of the written term in which names were replaced one
after the other. Here this is one replacement of many names at once, and what is to be said of
filled terms is shown by induction on the written one.
-/

namespace RowScript

open List

namespace Term

/-- What is copied into the places of names. -/
abbrev Copies := String → Option Term

namespace Copies

variable {copies : Copies} {name : String} {value : Term} {hidden : String → Bool}

/-- Nothing is copied. -/
def empty : Copies := fun _ => none

/-- One more name has copies. -/
def insert (copies : Copies) (name : String) (value : Term) : Copies :=
  fun n => if n = name then some value else copies n

/-- The copies where some names are hidden by binders. -/
def without (copies : Copies) (hidden : String → Bool) : Copies :=
  fun n => if hidden n then none else copies n

theorem without_empty : empty.without hidden = empty := by
  funext n
  simp [without, empty]

theorem without_insert_of_hidden (hname : hidden name) :
    (copies.insert name value).without hidden = copies.without hidden := by
  funext n
  by_cases hn : n = name
  · simp [without, hn, hname]
  · simp [without, insert, hn]

theorem without_insert (hname : hidden name = false) :
    (copies.insert name value).without hidden = (copies.without hidden).insert name value := by
  funext n
  by_cases hn : n = name
  · simp [without, insert, hn, hname]
  · simp [without, insert, hn]

theorem eq_some_of_without {n : String} (hn : copies.without hidden n = some value) :
    copies n = some value := by
  unfold without at hn
  split at hn
  · cases hn
  · exact hn

end Copies

/-- The names that a function binds. -/
def hides (param : Option Param) (name : String) : Bool := param.any (·.name = name)

mutual

/-- Puts copies in the places of free names. Bound names are not renamed. -/
def fill (copies : Copies) : Term → Term
  | .reference name loc => (copies name).getD (.reference name loc)
  | .function param body ascribed loc =>
    .function param (fill (copies.without (hides param)) body) ascribed loc
  | .application func arg loc => .application (fill copies func) (fill copies arg) loc
  | .letIn name value body nameLoc loc =>
    .letIn name (fill copies value) (fill (copies.without (· = name)) body) nameLoc loc
  | .conditional condition consequence alternative loc =>
    .conditional (fill copies condition) (fill copies consequence) (fill copies alternative) loc
  | .recordExtend key value record loc =>
    .recordExtend key (fill copies value) (fill copies record) loc
  | .recordRestrict key record loc => .recordRestrict key (fill copies record) loc
  | .fieldAccess key record loc => .fieldAccess key (fill copies record) loc
  | .array elements loc => .array (fillAll copies elements) loc
  | .boolean loc => .boolean loc
  | .number loc => .number loc
  | .string loc => .string loc
  | .unit loc => .unit loc
  | .emptyRecord loc => .emptyRecord loc

def fillAll (copies : Copies) : List Term → List Term
  | [] => []
  | term :: rest => fill copies term :: fillAll copies rest

end

variable {copies : Copies} {x y : String} {value : Term}

theorem fillAll_eq_map (terms : List Term) : fillAll copies terms = terms.map (fill copies) := by
  induction terms with
  | nil => rfl
  | cons term rest ih => rw [fillAll, ih, map_cons]

theorem fill_empty (term : Term) : term.fill .empty = term := by
  induction term using induct with
  | reference name loc => rfl
  | function param body ascribed loc ih => rw [fill, Copies.without_empty, ih]
  | application a b _ iha ihb | recordExtend _ a b _ iha ihb => rw [fill, iha, ihb]
  | letIn name a b _ _ iha ihb => rw [fill, Copies.without_empty, iha, ihb]
  | conditional a b c _ iha ihb ihc => rw [fill, iha, ihb, ihc]
  | recordRestrict _ a _ ih | fieldAccess _ a _ ih => rw [fill, ih]
  | array elements loc ih => rw [fill, fillAll_eq_map, map_congr_left ih, map_id']
  | boolean | number | string | unit | emptyRecord => rfl

theorem replace_of_not_mem_freeNames (term : Term) (hfree : x ∉ term.freeNames) :
    term.replace x value = term := by
  induction term using induct with
  | reference name loc =>
    rw [replace, if_neg]
    rintro rfl
    exact hfree (mem_singleton_self _)
  | function param body ascribed loc ih =>
    rw [replace]
    split
    · rfl
    · rename_i hparam
      rw [ih fun hbody => hfree (mem_filter.mpr ⟨hbody, by simpa using hparam⟩)]
  | application a b _ iha ihb | recordExtend _ a b _ iha ihb =>
    simp only [freeNames, mem_append, not_or] at hfree
    rw [replace, iha hfree.1, ihb hfree.2]
  | letIn name a b _ _ iha ihb =>
    simp only [freeNames, mem_append, not_or] at hfree
    rw [replace, iha hfree.1]
    split
    · rfl
    · rename_i hname
      rw [ihb fun hbody => hfree.2 (mem_filter.mpr ⟨hbody, by simpa using Ne.symm hname⟩)]
  | conditional a b c _ iha ihb ihc =>
    simp only [freeNames, mem_append, not_or] at hfree
    rw [replace, iha hfree.1.1, ihb hfree.1.2, ihc hfree.2]
  | recordRestrict _ a _ ih | fieldAccess _ a _ ih => rw [replace, ih hfree]
  | array elements loc ih =>
    rw [replace, replaceAll_eq_map]
    congr 1
    refine (map_congr_left fun element helement => ih element helement ?_).trans
      (map_id' _)
    exact fun hx => hfree (mem_freeNamesIn.mpr ⟨element, helement, hx⟩)
  | boolean | number | string | unit | emptyRecord => rfl

/-- A name that is not free in the copies is replaced together with the others. -/
theorem replace_fill (term : Term) (hx : copies x = none)
    (hfree : ∀ n copy, copies n = some copy → x ∉ copy.freeNames) :
    (term.fill copies).replace x value = term.fill (copies.insert x value) := by
  induction term using induct generalizing copies with
  | reference name loc =>
    by_cases hname : name = x
    · subst hname
      simp [fill, hx, Copies.insert, replace]
    · cases hcopy : copies name with
      | none => simp [fill, hcopy, Copies.insert, hname, replace]
      | some copy =>
        simp [fill, hcopy, Copies.insert, hname,
          replace_of_not_mem_freeNames copy (hfree name copy hcopy)]
  | function param body ascribed loc ih =>
    rw [fill, replace, fill]
    split
    · rename_i hparam
      rw [Copies.without_insert_of_hidden hparam]
    · rename_i hparam
      rw [Copies.without_insert (by simpa [hides] using hparam)]
      rw [ih (by simp [Copies.without, hx])
        fun n copy hn => hfree n copy (Copies.eq_some_of_without hn)]
  | application a b _ iha ihb | recordExtend _ a b _ iha ihb =>
    rw [fill, replace, iha hx hfree, ihb hx hfree, fill]
  | letIn name a b _ _ iha ihb =>
    rw [fill, replace, fill, iha hx hfree]
    split
    · rename_i hname
      rw [Copies.without_insert_of_hidden (by simp [hname])]
    · rename_i hname
      rw [Copies.without_insert (by simpa using Ne.symm hname)]
      rw [ihb (by simp [Copies.without, hx])
        fun n copy hn => hfree n copy (Copies.eq_some_of_without hn)]
  | conditional a b c _ iha ihb ihc =>
    rw [fill, replace, iha hx hfree, ihb hx hfree, ihc hx hfree, fill]
  | recordRestrict _ a _ ih | fieldAccess _ a _ ih => rw [fill, replace, ih hx hfree, fill]
  | array elements loc ih =>
    rw [fill, replace, fill, fillAll_eq_map, fillAll_eq_map, replaceAll_eq_map, map_map]
    congr 1
    exact map_congr_left fun element helement => ih element helement hx hfree
  | boolean | number | string | unit | emptyRecord => rfl

theorem replace_eq_fill (term : Term) :
    term.replace x value = term.fill (Copies.empty.insert x value) := by
  have hfill : (term.fill .empty).replace x value = term.fill (Copies.empty.insert x value) :=
    replace_fill term rfl fun _ _ hn => by cases hn
  rwa [fill_empty] at hfill

/-- The free names of a filled term are its own and those of the copies. -/
theorem mem_freeNames_of_fill (term : Term) (hy : y ∈ (term.fill copies).freeNames) :
    y ∈ term.freeNames ∨ ∃ n copy, copies n = some copy ∧ y ∈ copy.freeNames := by
  induction term using induct generalizing copies with
  | reference name loc =>
    cases hcopy : copies name with
    | none => exact .inl (by simpa [fill, hcopy] using hy)
    | some copy => exact .inr ⟨name, copy, hcopy, by simpa [fill, hcopy] using hy⟩
  | function param body ascribed loc ih =>
    rw [fill, freeNames, mem_filter] at hy
    obtain hbody | ⟨n, copy, hn, hcopy⟩ := ih hy.1
    · exact .inl (mem_filter.mpr ⟨hbody, hy.2⟩)
    · exact .inr ⟨n, copy, Copies.eq_some_of_without hn, hcopy⟩
  | application a b _ iha ihb | recordExtend _ a b _ iha ihb =>
    simp only [fill, freeNames, mem_append] at hy ⊢
    exact hy.elim (fun ha => (iha ha).imp_left .inl) fun hb => (ihb hb).imp_left .inr
  | letIn name a b _ _ iha ihb =>
    simp only [fill, freeNames, mem_append, mem_filter] at hy ⊢
    obtain ha | ⟨hb, hname⟩ := hy
    · exact (iha ha).imp_left .inl
    · obtain hb | ⟨n, copy, hn, hcopy⟩ := ihb hb
      · exact .inl (.inr ⟨hb, hname⟩)
      · exact .inr ⟨n, copy, Copies.eq_some_of_without hn, hcopy⟩
  | conditional a b c _ iha ihb ihc =>
    simp only [fill, freeNames, mem_append] at hy ⊢
    obtain (ha | hb) | hc := hy
    · exact (iha ha).imp_left fun h => .inl (.inl h)
    · exact (ihb hb).imp_left fun h => .inl (.inr h)
    · exact (ihc hc).imp_left .inr
  | recordRestrict _ a _ ih | fieldAccess _ a _ ih => exact ih hy
  | array elements loc ih =>
    rw [fill, fillAll_eq_map, freeNames, mem_freeNamesIn] at hy
    obtain ⟨filled, hfilled, hy⟩ := hy
    obtain ⟨element, helement, rfl⟩ := mem_map.mp hfilled
    exact (ih element helement hy).imp_left fun h => mem_freeNamesIn.mpr ⟨element, helement, h⟩
  | boolean | number | string | unit | emptyRecord => cases hy

mutual

/-- Whether no name of a scope is bound in a term, and no name inside its own scope. -/
def bindsApart (scope : List String) : Term → Bool
  | .reference .. | .boolean _ | .number _ | .string _ | .unit _ | .emptyRecord _ => true
  | .function param body _ _ =>
    param.all (fun p => !scope.contains p.name) &&
      bindsApart ((param.map (·.name)).toList ++ scope) body
  | .letIn name value body _ _ =>
    !scope.contains name && bindsApart scope value && bindsApart (name :: scope) body
  | .application a b _ | .recordExtend _ a b _ => bindsApart scope a && bindsApart scope b
  | .conditional a b c _ => bindsApart scope a && bindsApart scope b && bindsApart scope c
  | .recordRestrict _ record _ | .fieldAccess _ record _ => bindsApart scope record
  | .array elements _ => bindApart scope elements

def bindApart (scope : List String) : List Term → Bool
  | [] => true
  | term :: rest => bindsApart scope term && bindApart scope rest

end

variable {scope : List String} {terms : List Term} {body : Term} {loc : Loc}

theorem bindApart_iff : bindApart scope terms ↔ ∀ term ∈ terms, term.bindsApart scope := by
  induction terms with
  | nil => simp [bindApart]
  | cons term rest ih => simp [bindApart, ih]

theorem binders_sublist_of_mem {element : Term} (helement : element ∈ terms) :
    element.binders.Sublist (bindersIn terms) := by
  induction terms with
  | nil => cases helement
  | cons term rest ih =>
    obtain rfl | hrest := mem_cons.mp helement
    · exact sublist_append_left ..
    · exact (ih hrest).trans (sublist_append_right ..)

theorem bindsApart_of_nodup (term : Term) (hdistinct : term.binders.Nodup)
    (hscope : ∀ name ∈ term.binders, name ∉ scope) : term.bindsApart scope := by
  induction term using induct generalizing scope with
  | reference | boolean | number | string | unit | emptyRecord => rfl
  | function param body ascribed loc ih =>
    rw [binders, nodup_append] at hdistinct
    simp only [binders, mem_append] at hscope
    rw [bindsApart, Bool.and_eq_true]
    constructor
    · cases param with
      | none => rfl
      | some param => simpa using hscope param.name (.inl (by simp))
    · refine ih hdistinct.2.1 fun name hname => ?_
      rw [mem_append, not_or]
      exact ⟨fun hparam => hdistinct.2.2 name hparam name hname rfl, hscope name (.inr hname)⟩
  | application a b _ iha ihb | recordExtend _ a b _ iha ihb =>
    rw [binders, nodup_append] at hdistinct
    simp only [binders, mem_append] at hscope
    rw [bindsApart, iha hdistinct.1 fun n hn => hscope n (.inl hn),
      ihb hdistinct.2.1 fun n hn => hscope n (.inr hn), Bool.and_true]
  | letIn name a b _ _ iha ihb =>
    rw [binders, nodup_cons, mem_append, not_or, nodup_append] at hdistinct
    simp only [binders, mem_cons, mem_append] at hscope
    simp only [bindsApart, Bool.and_eq_true]
    refine ⟨⟨by simpa using hscope name (.inl rfl), ?_⟩, ?_⟩
    · exact iha hdistinct.2.1 fun n hn => hscope n (.inr (.inl hn))
    · refine ihb hdistinct.2.2.1 fun n hn => ?_
      rw [mem_cons, not_or]
      refine ⟨?_, hscope n (.inr (.inr hn))⟩
      rintro rfl
      exact hdistinct.1.2 hn
  | conditional a b c _ iha ihb ihc =>
    rw [binders, nodup_append, nodup_append] at hdistinct
    simp only [binders, mem_append] at hscope
    rw [bindsApart, iha hdistinct.1.1 fun n hn => hscope n (.inl (.inl hn)),
      ihb hdistinct.1.2.1 fun n hn => hscope n (.inl (.inr hn)),
      ihc hdistinct.2.1 fun n hn => hscope n (.inr hn)]
    rfl
  | recordRestrict _ a _ ih | fieldAccess _ a _ ih => exact ih hdistinct hscope
  | array elements loc ih =>
    refine bindApart_iff.mpr fun element helement => ih element helement ?_ fun n hn => ?_
    · exact hdistinct.sublist (binders_sublist_of_mem helement)
    · exact hscope n (mem_bindersIn.mpr ⟨element, helement, hn⟩)

/-- The copies have a property, and only names of a scope are free in them. -/
def Copies.Within (scope : List String) (P : Term → Prop) (copies : Copies) : Prop :=
  ∀ n copy, copies n = some copy → P copy ∧ ∀ y ∈ copy.freeNames, y ∈ scope

namespace Copies.Within

variable {P : Term → Prop} {name : String}

theorem empty : Within scope P .empty := by
  intro _ _ hn
  cases hn

variable (hcopies : Within scope P copies)

include hcopies

theorem without (hidden : String → Bool) : Within scope P (copies.without hidden) :=
  fun n copy hn => hcopies n copy (eq_some_of_without hn)

theorem mono {larger : List String} (hscope : ∀ n ∈ scope, n ∈ larger) : Within larger P copies :=
  fun n copy hn => ⟨(hcopies n copy hn).1, fun y hy => hscope y ((hcopies n copy hn).2 y hy)⟩

theorem insert (hvalue : P value) (hfree : ∀ y ∈ value.freeNames, y ∈ scope) :
    Within scope P (copies.insert name value) := by
  intro n copy hn
  unfold Copies.insert at hn
  split at hn
  · cases hn
    exact ⟨hvalue, hfree⟩
  · exact hcopies n copy hn

theorem freeNames_fill {term : Term} (hterm : ∀ n ∈ term.freeNames, n ∈ scope) :
    ∀ n ∈ (term.fill copies).freeNames, n ∈ scope := by
  intro n hn
  obtain hn | ⟨m, copy, hcopy, hn⟩ := mem_freeNames_of_fill term hn
  · exact hterm n hn
  · exact (hcopies m copy hcopy).2 n hn

/-- A name that is declared outside the scope of the copies has copies from then on. -/
theorem replace_fill (hname : name ∉ scope) (body : Term) :
    (body.fill (copies.without (· = name))).replace name value =
      body.fill ((copies.without (· = name)).insert name value) := by
  refine Term.replace_fill body (by simp [Copies.without]) fun n copy hn hfree => ?_
  exact hname ((hcopies.without _ n copy hn).2 name hfree)

end Copies.Within

/-- The names free in the body of a function are free in the function or bound by it. -/
theorem mem_scope_of_body {param : Option Param} {ascribed : Option Ty}
    (hnames : ∀ n ∈ (Term.function param body ascribed loc).freeNames, n ∈ scope) :
    ∀ n ∈ body.freeNames, n ∈ (param.map (·.name)).toList ++ scope := by
  intro n hn
  cases param with
  | none => exact hnames n (mem_filter.mpr ⟨hn, rfl⟩)
  | some param =>
    by_cases hparam : param.name = n
    · exact hparam ▸ mem_append_left _ (mem_singleton_self _)
    · refine mem_append_right _ (hnames n (mem_filter.mpr ⟨hn, ?_⟩))
      simpa using hparam

/-- The names free in the body of a declaration are free in the whole or declared by it. -/
theorem mem_scope_of_declared {name : String} {nameLoc : Loc}
    (hnames : ∀ n ∈ (Term.letIn name value body nameLoc loc).freeNames, n ∈ scope) :
    ∀ n ∈ body.freeNames, n ∈ name :: scope := by
  intro n hn
  by_cases hname : n = name
  · exact hname ▸ mem_cons_self
  · refine mem_cons_of_mem _ (hnames n (mem_append_right _ ?_))
    exact mem_filter.mpr ⟨hn, decide_eq_true hname⟩

end Term

end RowScript
