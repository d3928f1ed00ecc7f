import Tandem.Proofs.Markup.Named
import Tandem.Proofs.Source.Rewrap

/-!
# Handlers that lose a brace

A handler that is read is a closed expression, and its body is what is left of it without the arrow
and a brace at each end. The two braces are taken off apart, so the body may be closed no longer.
How many braces it leaves open is followed through the parts of the handler:

* **in front** — `stackAfter?_dropOpening`: an opening brace behind the arrow counts for the body if
  it stays, and not if it is taken off;
* **at the end** — `stackAfter?_dropBrace`: a brace that is taken off is missing, unless it stands
  in a line comment;
* **around the body** — `stackAfter?_wrap`: a written handler ends in the braces that its body ends
  in, so `rewraps_iff` says for which of them it can be read.

`handler_rereads_iff` joins them: the handlers that do not come back are those which end in a brace
that is not their own (`Torn`).
-/

namespace Tandem.Source

open Text Markup

/-! ## The braces around a body -/

/-- Written around a body that ends at rest in some braces, the handler ends in these braces. -/
theorem stackAfter?_wrap {pad : Nat → List Char} (hpad : ∀ l, Blank (pad l)) (level : Nat)
    {body : String} (htrim : trim body.toList = body.toList) {k : Nat} {t : List Frame}
    (hbody : stackAfter? (braces 2) body.toList = some t) (ht : Rests (braces k) t) :
    stackAfter? (braces 1) (wrap pad level body) = some (braces k) := by
  obtain ⟨a, z, hwrap, ha, hz, hbreak⟩ := wrap_of_trimmed hpad level htrim
  have hopened : stackAfter? (braces 1) (wrap pad level body) =
      stackAfter? (braces 2) (a ++ (body.toList ++ (z ++ ['\x7d']))) := by
    rw [hwrap]
    rfl
  have hshut : stackAfter? t (z ++ ['\x7d']) = some (braces k) := by
    refine ht.stackAfter?_shut hz fun hnote => hbreak ?_
    exact occurs_slashes (inExpression_braces 2) (by decide) (by decide) hbody hnote
  rw [hopened, stackAfter?_plain_append (not_mem_marks_of_blank ha),
    stackAfter?_append, hbody, Option.bind_some, hshut]

/-- A body between two braces is read again if one of them is left open when a closing one follows;
or none, and the body does not end in another. -/
theorem rewraps_iff {pad : Nat → List Char} (hpad : ∀ l, Blank (pad l)) (level : Nat)
    {body : String} (htrim : trim body.toList = body.toList) {k : Nat} {t : List Frame}
    (hbody : stackAfter? (braces 2) body.toList = some t) (ht : Rests (braces k) t) :
    Rewraps pad level body ↔ k = 1 ∨ k = 0 ∧ body.toList.getLast? ≠ some '\x7d' := by
  have hleads : Leads (braces 1) (braces k) (wrap pad level body) :=
    leads_of_stackAfter? (stackAfter?_wrap hpad level htrim hbody ht)
  have hinside : close (braces 1) (wrap pad level body) = close (braces k) [] := by
    rw [← List.append_nil (wrap pad level body), hleads]
  have hbehind := hleads ['\x7d']
  rw [Rewraps]
  unfold closeBrace
  have hone : [Frame.code false] = braces 1 := rfl
  rw [hone, hbehind, hinside]
  match k with
  | 0 => simp [braces, close_nil]
  | 1 => simp [braces, close, step, codeStep]
  | k + 2 => simp [braces, close, step, codeStep, List.replicate_succ]

/-! ## What a handler leaves open -/

theorem closeBrace_concat_iff {cs : List Char} {t : List Frame}
    (h : stackAfter? (braces 1) cs = some t) (ht : Rests [] t) :
    closeBrace (cs ++ ['\x7d']) = some [] ↔ t.head? ≠ some .lineNote := by
  have hclose : closeBrace (cs ++ ['\x7d']) = close t ['\x7d'] := leads_of_stackAfter? h _
  rw [hclose]
  cases ht with
  | code slash => simp [close, step, codeStep]
  | note => simp [close, step]

/-- A brace that is taken off an expression at rest closed another around it, unless it stands in
a comment. -/
theorem stackAfter?_dropBrace {s t : List Frame} (hs : InExpression s) {cs : List Char}
    (h : stackAfter? s cs = some t) (ht : Rests [] t) :
    ∃ u, stackAfter? s (dropBrace cs) = some u ∧
      Rests (braces (if cs.getLast? = some '\x7d' ∧ t.head? ≠ some .lineNote then 1 else 0)) u := by
  by_cases hlast : cs.getLast? = some '\x7d'
  · obtain ⟨front, rfl⟩ := List.getLast?_eq_some_iff.mp hlast
    rw [stackAfter?_concat] at h
    obtain ⟨u, hu, hstep⟩ := Option.bind_eq_some_iff.mp h
    obtain ⟨b, hfront, hb⟩ := exists_eq_trimEnd front
    rw [hfront] at hu
    rw [dropBrace, if_pos hlast, List.dropLast_concat]
    obtain ⟨hrests, rfl⟩ | ⟨hrests, rfl⟩ := Rests.of_brace (hs.stackAfter? hu) hstep ht
    · obtain ⟨v, hv, hrests⟩ := Rests.of_blanks hs hb hu hrests
      exact ⟨v, hv, by rw [if_pos ⟨hlast, by simp⟩]; exact hrests⟩
    · obtain ⟨v, hv, hrests⟩ := Rests.of_blanks hs hb hu hrests
      exact ⟨v, hv, by rw [if_neg fun h => h.2 rfl]; exact hrests⟩
  · obtain ⟨b, hcs, hb⟩ := exists_eq_trimEnd cs
    rw [hcs] at h
    obtain ⟨u, hu, hrests⟩ := Rests.of_blanks hs hb h ht
    rw [dropBrace, if_neg hlast]
    exact ⟨u, hu, by rw [if_neg fun h => hlast h.1]; exact hrests⟩

/-! ## Arrows -/

/-- What stands behind the arrow of a handler and the blanks after it. -/
def behindArrow? (cs : List Char) : Option (List Char) :=
  (dropKeyword "()" cs).bind fun cs =>
    (dropKeyword "=>" (cs.dropWhile isBlank)).map fun cs => cs.dropWhile isBlank

/-- The text without an opening brace and the blanks behind it. -/
def dropOpening : List Char → List Char
  | '\x7b' :: cs => cs.dropWhile isBlank
  | cs => cs

theorem arrowRest?_eq (cs : List Char) : arrowRest? cs = (behindArrow? cs).map dropOpening := by
  rw [arrowRest?, behindArrow?, Option.map_bind]
  congr 1
  funext cs
  rw [Function.comp, Option.map_map]
  rfl

theorem unwrap_eq {h : List Char} (htrim : trim h = h) :
    (unwrap (String.ofList h)).toList =
      match behindArrow? h with
      | none => h
      | some inside => dropBrace (dropOpening inside) := by
  simp only [unwrap, String.toList_ofList, htrim, arrowRest?_eq, Option.map_map]
  cases behindArrow? h <;> rfl

theorem eq_append_of_behindArrow? {h inside : List Char} (hb : behindArrow? h = some inside) :
    ∃ front, h = front ++ inside ∧ (∀ c ∈ front, c ∉ marks) ∧ Stops isBlank inside := by
  obtain ⟨cs, hcs, hmap⟩ := Option.bind_eq_some_iff.mp hb
  obtain ⟨ds, hds, rfl⟩ := Option.map_eq_some_iff.mp hmap
  have hfirst : "()".toList ++ cs = h := List.isPrefixOf?_eq_some_iff_append_eq.mp hcs
  have hsecond : "=>".toList ++ ds = cs.dropWhile isBlank :=
    List.isPrefixOf?_eq_some_iff_append_eq.mp hds
  refine ⟨"()".toList ++ cs.takeWhile isBlank ++ "=>".toList ++ ds.takeWhile isBlank, ?_, ?_,
    stops_dropWhile isBlank ds⟩
  · rw [← hfirst, List.append_assoc _ _ (ds.dropWhile isBlank), List.takeWhile_append_dropWhile,
      List.append_assoc _ _ ds, hsecond, List.append_assoc, List.takeWhile_append_dropWhile]
  · have hopening : ∀ c ∈ "()".toList, c ∉ marks := by simp [marks]
    have harrow : ∀ c ∈ "=>".toList, c ∉ marks := by simp [marks]
    intro c hc
    simp only [List.mem_append] at hc
    rcases hc with ((hc | hc) | hc) | hc
    · exact hopening c hc
    · exact not_mem_marks_of_blank (blank_takeWhile cs) c hc
    · exact harrow c hc
    · exact not_mem_marks_of_blank (blank_takeWhile ds) c hc

theorem dropOpening_suffix (cs : List Char) : dropOpening cs <:+ cs := by
  unfold dropOpening
  split
  · exact (List.dropWhile_suffix isBlank).trans (List.suffix_cons _ _)
  · exact List.suffix_rfl

theorem dropOpening_eq_self {cs : List Char} (h : cs.head? ≠ some '\x7b') :
    dropOpening cs = cs := by
  unfold dropOpening
  split
  · exact absurd rfl h
  · rfl

/-- An opening brace that is taken off is one more in front of the rest. -/
theorem stackAfter?_dropOpening (cs : List Char) :
    stackAfter? (braces (if cs.head? = some '\x7b' then 2 else 1)) (dropOpening cs) =
      stackAfter? (braces 1) cs := by
  by_cases hopen : cs.head? = some '\x7b'
  · obtain ⟨more, rfl⟩ := List.head?_eq_some_iff.mp hopen
    have hblank := not_mem_marks_of_blank (blank_takeWhile more)
    have hskip := stackAfter?_plain_append hblank 1 (more.dropWhile isBlank)
    rw [List.takeWhile_append_dropWhile] at hskip
    rw [if_pos hopen]
    exact hskip.symm
  · rw [if_neg hopen, dropOpening_eq_self hopen]

/-! ## Unwrapped bodies -/

theorem trim_dropBrace {cs : List Char} (h : Stops isBlank cs) :
    trim (dropBrace cs) = dropBrace cs := by
  have hend : ∀ {ds : List Char}, Stops isBlank ds → trim (trimEnd ds) = trimEnd ds := by
    intro ds hds
    have hstart : trimEnd ds = trim ds := by rw [trim, trimStart, hds.dropWhile]
    rw [hstart, trim_trim]
  rw [dropBrace]
  split
  · refine hend fun c hc => h c ?_
    cases cs with
    | nil => cases hc
    | cons d cs =>
        cases cs with
        | nil => cases hc
        | cons e cs => exact hc
  · exact hend h

/-- What is unwrapped has no blanks around it. -/
theorem trim_unwrap (s : String) : trim (unwrap s).toList = (unwrap s).toList := by
  obtain ⟨h, rfl⟩ : ∃ h, s = String.ofList h := ⟨s.toList, String.ofList_toList.symm⟩
  rw [← unwrap_trim, unwrap_eq (trim_trim h)]
  cases harrow : behindArrow? (trim h) with
  | none => exact trim_trim h
  | some inside =>
      obtain ⟨-, -, -, hstops⟩ := eq_append_of_behindArrow? harrow
      refine trim_dropBrace ?_
      unfold dropOpening
      split
      · exact stops_dropWhile isBlank _
      · exact hstops

theorem trim_of_handler? {v : Json} {body : String} (h : handler? v = some body) :
    trim body.toList = body.toList := by
  cases v with
  | str s =>
      obtain rfl : unwrap s = body := Option.some.inj h
      exact trim_unwrap s
  | _ => cases h

/-! ## Torn handlers -/

/-- The braces that a closing one behind the body of a handler leaves open, if there are two in
front of the body. -/
def bracesBehind (h : List Char) : Nat :=
  match behindArrow? h with
  | none => 1
  | some inside =>
    (if inside.head? = some '\x7b' then 0 else 1) +
      if inside.getLast? = some '\x7d' ∧ closeBrace (h ++ ['\x7d']) = some [] then 1 else 0

/-- The handler ends in a brace that is taken for the one that closes its body and is not. It may
close something inside the body, which has no braces of its own; or it stands in a comment, and the
body is left with another brace at its end. -/
def Torn (h : List Char) : Prop :=
  ∃ inside, behindArrow? h = some inside ∧ inside.getLast? = some '\x7d' ∧
    if closeBrace (h ++ ['\x7d']) = some [] then inside.head? ≠ some '\x7b'
    else inside.head? = some '\x7b' ∧
      (unwrap (String.ofList h)).toList.getLast? = some '\x7d'

section

variable {h inside : List Char}

/-- What is behind the arrow ends as the body does, or in a brace behind it. -/
theorem getLast?_dropOpening (hne : dropBrace (dropOpening inside) ≠ []) :
    (dropOpening inside).getLast? = inside.getLast? := by
  have hrest : dropOpening inside ≠ [] := fun hnil => hne (by rw [hnil]; rfl)
  obtain ⟨skipped, hskipped⟩ := dropOpening_suffix inside
  conv_rhs => rw [← hskipped, List.getLast?_append_of_ne_nil _ hrest]

/-- If no brace is taken off, the body ends as the handler does. -/
theorem getLast?_body {front : List Char} (htrim : trim (front ++ inside) = front ++ inside)
    (hne : dropBrace (dropOpening inside) ≠ []) (hlast : inside.getLast? ≠ some '\x7d') :
    (dropBrace (dropOpening inside)).getLast? = inside.getLast? := by
  have hrest := getLast?_dropOpening hne
  have hinside : inside ≠ [] := by
    rintro rfl
    exact hne rfl
  have hend : ∀ c ∈ (dropOpening inside).getLast?, isBlank c = false := by
    rw [hrest, ← List.getLast?_append_of_ne_nil front hinside, ← htrim]
    exact getLast?_trim _
  rw [dropBrace, hrest, if_neg hlast, trimEnd_eq_self hend, hrest]

/-- The body of a handler that is closed ends at rest. -/
theorem stackAfter?_unwrap (htrim : trim h = h) {t : List Frame}
    (hh : stackAfter? (braces 1) h = some t) (ht : Rests [] t)
    (hne : (unwrap (String.ofList h)).toList ≠ []) :
    ∃ u, stackAfter? (braces 2) (unwrap (String.ofList h)).toList = some u ∧
      Rests (braces (bracesBehind h)) u := by
  have hunwrap := unwrap_eq htrim
  rw [bracesBehind]
  cases harrow : behindArrow? h with
  | none =>
      simp only [harrow] at hunwrap ⊢
      rw [hunwrap]
      exact ⟨t ++ braces 1, stackAfter?_below hh (braces 1), (rests_append_iff (braces 1)).mpr ht⟩
  | some inside =>
      simp only [harrow] at hunwrap ⊢
      obtain ⟨front, hsplit, hfront, -⟩ := eq_append_of_behindArrow? harrow
      have hinside : stackAfter? (braces 1) inside = some t := by
        rw [← hh, hsplit]
        exact (stackAfter?_plain_append hfront 0 inside).symm
      have hlast := getLast?_dropOpening (hunwrap ▸ hne)
      simp only [closeBrace_concat_iff hh ht, ← hlast, hunwrap]
      rw [← stackAfter?_dropOpening] at hinside
      obtain ⟨u, hu, hrests⟩ := stackAfter?_dropBrace (inExpression_braces _) hinside ht
      split at hu
      next hopen =>
        refine ⟨u, hu, ?_⟩
        rw [if_pos hopen, Nat.zero_add]
        exact hrests
      next hopen =>
        refine ⟨u ++ braces 1, stackAfter?_below hu (braces 1), ?_⟩
        rw [if_neg hopen, Nat.add_comm, braces, ← List.replicate_append_replicate]
        exact (rests_append_iff (braces 1)).mpr hrests

theorem not_torn_iff (htrim : trim h = h) (hne : (unwrap (String.ofList h)).toList ≠ []) :
    ¬Torn h ↔ bracesBehind h = 1 ∨
      bracesBehind h = 0 ∧ (unwrap (String.ofList h)).toList.getLast? ≠ some '\x7d' := by
  have hunwrap := unwrap_eq htrim
  rw [bracesBehind, Torn]
  cases harrow : behindArrow? h with
  | none => simp
  | some inside =>
      simp only [harrow, Option.some.injEq, exists_eq_left'] at hunwrap ⊢
      by_cases hlast : inside.getLast? = some '\x7d'
      · by_cases hclosed : closeBrace (h ++ ['\x7d']) = some []
        · by_cases hopen : inside.head? = some '\x7b' <;> simp [hlast, hclosed, hopen]
        · by_cases hopen : inside.head? = some '\x7b' <;> simp [hlast, hclosed, hopen]
      · obtain ⟨front, hsplit, -, -⟩ := eq_append_of_behindArrow? harrow
        have hbody : (unwrap (String.ofList h)).toList.getLast? ≠ some '\x7d' := by
          rw [hunwrap, getLast?_body (hsplit ▸ htrim) (hunwrap ▸ hne) hlast]
          exact hlast
        by_cases hopen : inside.head? = some '\x7b' <;> simp [hlast, hopen, hbody]

end

/-- A handler that is read from a tag rests in front of its closing brace. -/
theorem rests_of_read {cs left : List Char} {t : Tag} (htag : tag? cs = some (t, left))
    {name h : List Char} (hattr : ⟨name, .braced h⟩ ∈ t.attrs) :
    trim h = h ∧ ∃ s, stackAfter? (braces 1) h = some s ∧ Rests [] s := by
  obtain ⟨whole, hclosed, rfl⟩ := tag?_braced htag hattr
  obtain ⟨a, b, hsplit, ha, hb⟩ := exists_eq_trim whole
  obtain ⟨s, hs, hrests⟩ := rests_of_closed hclosed
  rw [hsplit, stackAfter?_plain_append (not_mem_marks_of_blank ha)] at hs
  exact ⟨trim_trim whole, Rests.of_blanks (inExpression_braces 1) hb hs hrests⟩

/-- **Which handlers can be read and written again.** Let a handler be read from a tag, with a body
that is not blank. Written around the body, at any level, it is read as one attribute whose body is
that body, whatever follows, exactly if the written handler ends where it is meant to or just before
(`Rewraps`). If the handler that was read is no JSON, this is so unless it ends in a brace that is
not the one behind its body (`Torn`). -/
theorem handler_rereads_iff (g : Writer) (level : Nat) {cs left : List Char} {t : Tag}
    (htag : tag? cs = some (t, left)) {name h : List Char} (hattr : ⟨name, .braced h⟩ ∈ t.attrs)
    {body : String} (hbody : handler? (expressionValue h) = some body)
    (hblank : isBlankString body = false) :
    (Rereads g.pad level name body ↔ Rewraps g.pad level body) ∧
      (Json.ofText? h = none → (Rereads g.pad level name body ↔ ¬Torn h)) := by
  have hpad := Style.blank_pad g
  have hname : isAttrName name = true := (tag?_named htag).2 _ hattr
  have htrim := trim_of_handler? hbody
  have hne : body.toList ≠ [] := by
    rw [← htrim, Ne, trim_eq_nil_iff]
    exact Bool.eq_false_iff.mp hblank
  have hiff : Rereads g.pad level name body ↔ Rewraps g.pad level body :=
    rereads_iff hpad hname htrim hne
  refine ⟨hiff, fun hjson => ?_⟩
  obtain rfl : unwrap (String.ofList h) = body := by
    rw [expressionValue, hjson, Option.getD_none, handler?, Option.some.injEq] at hbody
    exact hbody
  obtain ⟨hself, s, hs, hrests⟩ := rests_of_read htag hattr
  obtain ⟨u, hu, hlevel⟩ := stackAfter?_unwrap hself hs hrests hne
  rw [hiff, rewraps_iff hpad level htrim hu hlevel, not_torn_iff hself hne]

/-- A handler with a brace in a comment is read again. -/
theorem handler_rereads_of_note :
    let cs := "<Button onClick=\x7b() => \x7b // \x7b\n  save() \x7d\x7d />".toList
    let h := "() => \x7b // \x7b\n  save() \x7d".toList
    let body := "// \x7b\n  save()"
    tag? cs = some (⟨"Button".toList, [⟨"onClick".toList, .braced h⟩], true⟩, []) ∧
      handler? (expressionValue h) = some body ∧ isBlankString body = false ∧
      Rereads (Writer.pad {}) 1 "onClick".toList body := by
  intro cs h body
  have htag : tag? cs = some (⟨"Button".toList, [⟨"onClick".toList, .braced h⟩], true⟩, []) := by
    decide +kernel
  have hbody : handler? (expressionValue h) = some body := by decide +kernel
  have hblank : isBlankString body = false := by decide
  have hmem : ⟨"onClick".toList, .braced h⟩ ∈ [(⟨"onClick".toList, .braced h⟩ : Attr)] :=
    List.mem_singleton_self _
  have hiff := (handler_rereads_iff {} 1 htag hmem hbody hblank).1
  exact ⟨htag, hbody, hblank, hiff.mpr (.inl (by decide +kernel))⟩

/-- An assignment of an object has a brace at its end and none behind the arrow: the brace is taken
off, and around what is left no tag is closed. -/
theorem assignment_loses_brace :
    let h := "() => state = \x7bopen: true\x7d".toList
    let body := "state = \x7bopen: true"
    tag? ("<Button onClick=\x7b".toList ++ h ++ "\x7d />".toList) =
        some (⟨"Button".toList, [⟨"onClick".toList, .braced h⟩], true⟩, []) ∧
      handler? (expressionValue h) = some body ∧
      tag? (handlerText (Writer.pad {}) 1 "onClick".toList body ++ " />".toList) = none ∧
      ¬Rereads (Writer.pad {}) 1 "onClick".toList body := by
  intro h body
  have hread :
      tag? (handlerText (Writer.pad {}) 1 "onClick".toList body ++ " />".toList) = none := by
    decide +kernel
  refine ⟨by decide +kernel, by decide +kernel, hread, ?_⟩
  intro hreads
  obtain ⟨inside, hinside, -⟩ := hreads " />".toList
  have hend : attrs? " />".toList = some ([], true, []) := by decide +kernel
  rw [ReadsAs, hread, hend] at hinside
  cases hinside

end Tandem.Source
