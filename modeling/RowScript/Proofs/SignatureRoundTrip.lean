import RowScript.Proofs.Comments
import RowScript.Proofs.TypeRoundTrip

/-!
# Printed signatures are annotations

A signature shown for a value can be put into a line comment above a function, and what is read from
it is the type that was shown.
-/

namespace RowScript

open Text Cursor

variable {name : String}

theorem IsWord.newline_notMem (hname : IsWord name) : '\n' ∉ name.toList :=
  fun hmem => absurd (hname.2 _ hmem) (by decide)

theorem IsTypeName.newline_notMem (hname : IsTypeName name) : '\n' ∉ name.toList := by
  rcases hname with hword | rfl
  · exact hword.newline_notMem
  · decide

theorem newline_notMem_commaJoined {texts : List (List Char)}
    (htexts : ∀ text ∈ texts, '\n' ∉ text) : '\n' ∉ commaJoined texts := by
  cases texts with
  | nil => exact List.not_mem_nil
  | cons first rest =>
    rw [List.forall_mem_cons] at htexts
    simpa [commaJoined, htexts.1] using htexts.2

theorem newline_notMem_angledChars {params : List String}
    (hparams : ∀ param ∈ params, IsWord param) : '\n' ∉ angledChars params := by
  by_cases hempty : params = []
  · simp [hempty]
  · have hjoined : '\n' ∉ commaJoined (params.map String.toList) := by
      apply newline_notMem_commaJoined
      intro text htext
      obtain ⟨param, hparam, rfl⟩ := List.mem_map.mp htext
      exact (hparams param hparam).newline_notMem
    simpa [angledChars_of_ne_nil hempty] using hjoined

/-- The text of a type in a place where it can be written. -/
def WrittenPlace.chars : WrittenPlace → Ty → List Char
  | .plain, ty => ty.chars
  | .scheme, ty => ty.body.chars
  | .row, ty => ty.rowChars

namespace Ty

variable {ty : Ty}

theorem newline_notMem_operandChars (hty : '\n' ∉ ty.chars) : '\n' ∉ ty.operandChars := by
  rw [operandChars, parenthesized]
  split
  · simpa [chars] using hty
  · exact hty

theorem Written.newline_notMem {place : WrittenPlace} (hty : ty.Written place) :
    '\n' ∉ place.chars ty := by
  induction hty with
  | ident loc hname => exact hname.newline_notMem
  | arrow harg hret iharg ihret =>
    have hoperand := newline_notMem_operandChars iharg
    have hret' : '\n' ∉ _ := ihret
    simpa [WrittenPlace.chars, chars_arrow, hoperand] using hret'
  | @app name arg nameLoc loc hname harg ih =>
    by_cases harray : name = "Array"
    · subst harray
      simpa [WrittenPlace.chars, chars_array] using newline_notMem_operandChars ih
    · have hname := hname.newline_notMem
      have harg : '\n' ∉ arg.chars := ih
      simp [WrittenPlace.chars, chars_app harray, hname, harg]
  | @record row hrow ih =>
    by_cases hempty : row = .emptyRow
    · subst hempty
      decide
    · have hrow : '\n' ∉ row.rowChars := ih
      simpa [WrittenPlace.chars, chars_record hempty] using hrow
  | simple hty ih =>
    rw [WrittenPlace.chars, hty.body_eq]
    exact ih
  | generic hparam hbody ih => exact ih
  | emptyRow => exact List.not_mem_nil
  | spread loc hname => simpa [WrittenPlace.chars, rowChars_ident] using hname.newline_notMem
  | @field key type base hkey htype hbase ihtype ihbase =>
    have hfield : '\n' ∉ fieldChars key type := by
      have hbody : '\n' ∉ type.body.chars := ihtype
      simp [fieldChars, hkey.newline_notMem, newline_notMem_angledChars htype.params, hbody]
    have hbase : '\n' ∉ base.rowChars := ihbase
    rw [WrittenPlace.chars, rowChars_field]
    split
    · exact hfield
    · simp [hbase, hfield]

theorem signature_toList (name : String) (ty : Ty) :
    (ty.signature name).toList = name.toList ++
      (angledChars ty.params ++ (' ' :: ':' :: ':' :: ' ' :: ty.body.chars)) := by
  rw [signature, print_eq]
  simp [angledChars, chars]

theorem Written.newline_notMem_signature (hname : IsWord name) (hty : ty.Written .scheme) :
    '\n' ∉ (ty.signature name).toList := by
  have hbody : '\n' ∉ ty.body.chars := hty.newline_notMem
  simp [signature_toList, hname.newline_notMem, newline_notMem_angledChars hty.params, hbody]

end Ty

namespace Text

namespace Comment

variable {body : List Char}

theorem lineLength_eq (hbody : '\n' ∉ body) : lineLength body = body.length := by
  fun_induction lineLength body with
  | case1 => rfl
  | case2 rest ih => simp at hbody
  | case3 rest _ => simp at hbody
  | case4 c rest _ hc ih => simp [ih (List.not_mem_of_not_mem_cons hbody)]

/-- A line comment that ends with the text is its only comment. -/
theorem scan_line (hbody : '\n' ∉ body) :
    ∃ loc, scan ('/' :: '/' :: body) = [⟨loc, false, body, 2⟩] := by
  have hquoted : Parser.quotedHere (start ('/' :: '/' :: body)).skipBlanks = .failed 0 :=
    Parser.quotedHere_eq_failed (show some '/' ≠ some '"' by decide)
      (show some '/' ≠ some '\'' by decide)
  have hread : read? (start ('/' :: '/' :: body)).skipBlanks =
      some (⟨⟨.origin, ((start ('/' :: '/' :: body)).drop (lineLength body + 2)).position⟩,
        false, body.take (lineLength body), 2⟩,
        (start ('/' :: '/' :: body)).drop (lineLength body + 2)) := rfl
  have hend : ((start ('/' :: '/' :: body)).drop (lineLength body + 2)).ahead = [] := by
    simp [ahead_drop, start, lineLength_eq hbody]
  refine ⟨⟨.origin, ((start ('/' :: '/' :: body)).drop (lineLength body + 2)).position⟩, ?_⟩
  rw [scan, scanUpTo]
  simp only [hquoted, hread, scanUpTo_end hend]
  rw [lineLength_eq hbody, List.take_length]

theorem isolate_line (loc : Loc) :
    isolate ('/' :: '/' :: body) ⟨loc, false, body, 2⟩ = ' ' :: ' ' :: body := by
  simp [isolate, blankAround, blank]

end Comment

end Text

open RowScript.Text.Parser (Reads) in
theorem Signature.grammar_reads {ty : Ty} (hname : IsWord name) (hty : ty.Written .scheme) :
    (Signature.grammar isKeywordChar).Reads (ty.signature name).toList []
      fun signature => signature.name = name ∧ signature.value.StandsFor ty := by
  have hfollows : Follows ['<', ':']
      (angledChars ty.params ++ (' ' :: ':' :: ':' :: ' ' :: ty.body.chars)) := by
    by_cases hparams : ty.params = []
    · rw [hparams]
      exact (follows_cons (by decide) rfl).blank rfl
    · rw [angledChars_of_ne_nil hparams]
      exact follows_cons (by decide) rfl
  have hcolon : Follows [':'] (' ' :: ':' :: ':' :: ' ' :: ty.body.chars) :=
    (follows_cons (by decide) rfl).blank rfl
  have hcolons : (Parser.symbol "::").Reads (' ' :: ':' :: ':' :: ' ' :: ty.body.chars)
      (' ' :: ty.body.chars) fun _ => True := Reads.symbol rfl
  have hvalue := TypeGrammar.type_reads hty.body follows_nil
  rw [List.append_nil] at hvalue
  rw [Ty.signature_toList]
  apply Reads.located_bind (P := fun found => found.1 = name ∧
    found.2.1.map (·.name) = ty.params ∧ found.2.2.StandsFor ty.body)
  · apply (TypeGrammar.word_reads hname hfollows (by decide)).bind
    intro found hfound
    apply (TypeGrammar.params_reads hty.params hcolon).bind
    intro ids hids
    apply hcolons.bind
    intro _ _
    apply (hvalue.commit.of_skipped rfl).bind
    intro value hvalue
    exact Reads.pure ⟨hfound, hids, hvalue⟩
  · rintro loc ⟨found, ids, value⟩ ⟨hfound, hids, hvalue⟩
    exact Reads.pure ⟨hfound, hvalue.withParams hids loc⟩

/-- A printed signature, written in a line comment, is one comment, and as an annotation of
the function it names it is read as the type that was printed. -/
theorem signature_annotates {name : String} {ty : Ty} (hname : IsWord name)
    (hty : ty.Written .scheme) :
    ∃ comment expr found, Comment.scan ("// " ++ ty.signature name).toList = [comment] ∧
      comment.isBlock = false ∧
      Signature.ofComment ("// " ++ ty.signature name).toList comment name = .ok expr ∧
      expr.toTy = .ok found ∧ found.agrees ty = true := by
  have htext : ("// " ++ ty.signature name).toList =
      '/' :: '/' :: ' ' :: (ty.signature name).toList := by simp
  have hline : '\n' ∉ ' ' :: (ty.signature name).toList := by
    simpa using hty.newline_notMem_signature hname
  obtain ⟨loc, hscan⟩ := Comment.scan_line hline
  have hreads : (Signature.grammar isKeywordChar).Reads
      (' ' :: ' ' :: ' ' :: (ty.signature name).toList) [] _ :=
    (Signature.grammar_reads hname hty).of_skipped rfl
  obtain ⟨signature, hrun, hsignature, found, hfound, hagrees⟩ := hreads.run
  rw [htext]
  refine ⟨_, signature.value, found, hscan, rfl, ?_, hfound, hagrees⟩
  rw [Signature.ofComment, Comment.isolate_line, readSignatures, hrun]
  exact if_pos hsignature

/-- A type with every form that can be written. -/
def sampleScheme : Ty :=
  .generic "a" (.generic "b" (.arrow (.arrow (.named "a") .unit)
    (.arrayOf (.app (.named "Box") (.record
      (.field "go" (.generic "c" (.arrow (.named "c") (.record .emptyRow none)))
        (.field "xs" (.arrayOf (.arrow (.named "a") (.named "b"))) (.named "b"))) none)
      .synthetic))))

theorem sampleScheme_written : sampleScheme.Written .scheme := by
  have ha : IsWord "a" := by decide
  have hb : IsWord "b" := by decide
  have hc : IsWord "c" := by decide
  have hab : (Ty.arrow (.named "a") (.named "b")).Written .plain :=
    .arrow (.ident _ (.inl ha)) (.ident _ (.inl hb))
  have hxs : (Ty.arrayOf (.arrow (.named "a") (.named "b"))).Written .plain :=
    .app _ _ (by decide) hab
  have hgo : (Ty.generic "c" (.arrow (.named "c") (.record .emptyRow none))).Written .scheme :=
    .generic hc (.simple (.arrow (.ident _ (.inl hc)) (.record .emptyRow)))
  apply Ty.Written.generic ha
  apply Ty.Written.generic hb
  apply Ty.Written.simple
  apply Ty.Written.arrow
  · exact .arrow (.ident _ (.inl ha)) (.ident _ (.inr rfl))
  · apply Ty.Written.app _ _ (by decide)
    apply Ty.Written.app _ _ (by decide)
    apply Ty.Written.record
    exact .field (by decide) hgo (.field (by decide) (.simple hxs) (.spread _ (.inl hb)))

theorem signature_annotates_sample :
    (sampleScheme.signature "f" =
      "f<a, b> :: (a -> ()) -> Box<\x7b ...b, xs: (a -> b)[], go<c>: c -> \x7b\x7d \x7d>[]") ∧
    ∃ comment expr found, Comment.scan ("// " ++ sampleScheme.signature "f").toList = [comment] ∧
      comment.isBlock = false ∧
      Signature.ofComment ("// " ++ sampleScheme.signature "f").toList comment "f" = .ok expr ∧
      expr.toTy = .ok found ∧ found.agrees sampleScheme = true :=
  ⟨by decide +kernel, signature_annotates (by decide) sampleScheme_written⟩

end RowScript
