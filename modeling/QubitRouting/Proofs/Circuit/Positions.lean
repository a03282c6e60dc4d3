import QubitRouting.Proofs.Circuit.Words

/-!
# Where lexemes stand

A lexeme carries the byte at which it starts and the line of it. Both are counted up while the
source is scanned; here they are shown to be what they should be, for every lexeme of every source:
the byte offset cuts the source right before the lexeme (`Slice`), and the line is the one that
`lineOf` finds at that offset. It follows that the text from the first of some lexemes to the last
is the piece of the source between the two offsets (`InSource.slice_span`).
-/

set_option autoImplicit false

namespace QubitRouting

/-! ## Pieces of a text -/

theorem foldl_utf8Size (cs : List Char) (n : Nat) :
    cs.foldl (fun n c => n + c.utf8Size) n = n + byteLength cs := by
  induction cs generalizing n with
  | nil => rfl
  | cons c cs ih =>
    have hcons : byteLength (c :: cs) = 0 + c.utf8Size + byteLength cs := ih _
    rw [List.foldl_cons, ih, hcons]
    omega

theorem byteLength_cons (c : Char) (cs : List Char) :
    byteLength (c :: cs) = c.utf8Size + byteLength cs := by
  rw [byteLength, List.foldl_cons, foldl_utf8Size, Nat.zero_add]

theorem byteLength_append (cs ds : List Char) :
    byteLength (cs ++ ds) = byteLength cs + byteLength ds := by
  rw [byteLength, List.foldl_append, foldl_utf8Size]
  rfl

theorem lineEnds_append (cs ds : List Char) : lineEnds (cs ++ ds) = lineEnds cs + lineEnds ds :=
  List.count_append

/-- The line of a byte is counted from the line ends in front of it. -/
theorem lineOf_append (before after : List Char) :
    lineOf (before ++ after) (byteLength before) = 1 + lineEnds before := by
  have hgo (here offset : Nat) (h : offset = here + byteLength before) :
      lineOf.go offset (before ++ after) here = lineEnds before := by
    induction before generalizing here with
    | nil =>
      obtain rfl : offset = here := h
      cases after with
      | nil => rfl
      | cons c after => simp [lineOf.go, lineEnds]
    | cons c before ih =>
      have hpos := c.utf8Size_pos
      rw [byteLength_cons] at h
      rw [List.cons_append, lineOf.go, if_pos (by omega), ih _ (by omega), lineEnds, lineEnds,
        List.count_cons, Nat.add_comm]
      simp
  rw [lineOf, hgo 0 _ (Nat.zero_add _).symm]

/-- A text is cut at a byte in one way only. -/
theorem append_inj_of_byteLength {before before' after after' : List Char}
    (h : before ++ after = before' ++ after') (hlength : byteLength before = byteLength before') :
    before = before' ∧ after = after' := by
  induction before generalizing before' with
  | nil =>
    cases before' with
    | nil => exact ⟨rfl, h⟩
    | cons c before' =>
      have hpos := c.utf8Size_pos
      have hnil : byteLength [] = 0 := rfl
      rw [byteLength_cons, hnil] at hlength
      omega
  | cons c before ih =>
    cases before' with
    | nil =>
      have hpos := c.utf8Size_pos
      have hnil : byteLength [] = 0 := rfl
      rw [byteLength_cons, hnil] at hlength
      omega
    | cons c' before' =>
      obtain ⟨rfl, hmore⟩ := List.cons.inj h
      rw [byteLength_cons, byteLength_cons] at hlength
      obtain ⟨rfl, hafter⟩ := ih hmore (by omega)
      exact ⟨rfl, hafter⟩

/-- The text of the source from one byte offset to another. -/
def Slice (source : List Char) (start stop : Nat) (text : List Char) : Prop :=
  ∃ before after, source = before ++ (text ++ after) ∧ byteLength before = start ∧
    start + byteLength text = stop

theorem Slice.unique {source text text' : List Char} {start stop : Nat}
    (h : Slice source start stop text) (h' : Slice source start stop text') : text = text' := by
  obtain ⟨before, after, hsource, hstart, hstop⟩ := h
  obtain ⟨before', after', hsource', hstart', hstop'⟩ := h'
  obtain ⟨-, hrest⟩ :=
    append_inj_of_byteLength (hsource.symm.trans hsource') (hstart.trans hstart'.symm)
  exact (append_inj_of_byteLength hrest (by omega)).1

/-! ## Pieces of a source -/

namespace Lexeme

variable {τ : Type} {source : List Char} {offset line : Nat}

/-- The lexemes follow each other from this byte and this line on. -/
def Located : Nat → Nat → List (Lexeme τ) → Prop
  | _, _, [] => True
  | offset, line, l :: ls =>
    l.start = offset + byteLength l.skipped ∧ l.line = line + lineEnds l.skipped ∧
      Located l.stop (l.line + lineEnds l.text) ls

theorem located_scanFrom (offset line : Nat) (cs : List Char) :
    Located offset line (scanFrom offset line cs) := by
  fun_induction scanFrom offset line cs with
  | case1 => trivial
  | case2 offset line cs skipped c rest hdrop n text start line' ih => exact ⟨rfl, rfl, ih⟩

theorem located_append {ls ls' : List (Lexeme τ)} :
    Located offset line (ls ++ ls') ↔
      Located offset line ls ∧
        Located (offset + byteLength (render (ls.map word) []))
          (line + lineEnds (render (ls.map word) [])) ls' := by
  induction ls generalizing offset line with
  | nil =>
    simp only [List.nil_append, Located, List.map_nil, render_nil, true_and]
    rfl
  | cons l ls ih =>
    simp only [List.cons_append, Located, List.map_cons, render_cons, word, byteLength_append,
      lineEnds_append, ih, and_assoc]
    refine and_congr_right fun hstart => and_congr_right fun hline => and_congr_right fun _ => ?_
    rw [stop, hstart, hline]
    simp only [Nat.add_assoc]

/-- The lexemes stand in the source one after the other, at the places that they carry. -/
def InSource (source : List Char) (ls : List (Lexeme τ)) : Prop :=
  ∃ before after, source = before ++ render (ls.map word) after ∧
    Located (byteLength before) (1 + lineEnds before) ls

theorem InSource.of_append {ls ls' : List (Lexeme τ)} (h : InSource source (ls ++ ls')) :
    InSource source ls ∧ InSource source ls' := by
  obtain ⟨before, after, hsource, hlocated⟩ := h
  obtain ⟨hls, hls'⟩ := located_append.mp hlocated
  rw [List.map_append, render_append] at hsource
  refine ⟨⟨before, _, hsource, hls⟩, before ++ render (ls.map word) [], after, ?_, ?_⟩
  · rw [hsource, render_eq_append, List.append_assoc]
  · rw [byteLength_append, lineEnds_append, ← Nat.add_assoc]
    exact hls'

theorem InSource.tail {l : Lexeme τ} {ls : List (Lexeme τ)} (h : InSource source (l :: ls)) :
    InSource source ls :=
  (show InSource source ([l] ++ ls) from h).of_append.2

/-- The line of a lexeme is that of the byte at which it starts. -/
theorem InSource.line_eq {l : Lexeme τ} {ls : List (Lexeme τ)} (h : InSource source (l :: ls)) :
    l.line = lineOf source l.start := by
  obtain ⟨before, after, hsource, hstart, hline, -⟩ := h
  rw [List.map_cons, render_cons, word, ← List.append_assoc] at hsource
  rw [hsource, hstart, ← byteLength_append, lineOf_append, lineEnds_append, hline, Nat.add_assoc]

theorem render_eq_span (l : Lexeme τ) (ls : List (Lexeme τ)) (k : List Char) :
    render ((l :: ls).map word) k = l.skipped ++ (span (l :: ls) ++ k) := by
  have hmore : render (ls.map word) k = ls.flatMap (fun l => l.skipped ++ l.text) ++ k := by
    induction ls with
    | nil => rfl
    | cons l ls ih => simp [ih, word, List.flatMap_cons]
  rw [List.map_cons, render_cons, hmore, word, span, List.append_assoc]

theorem Located.stop_getLast {l last : Lexeme τ} {ls : List (Lexeme τ)}
    (h : Located offset line (l :: ls)) (hlast : (l :: ls).getLast? = some last) :
    last.stop = l.start + byteLength (span (l :: ls)) := by
  induction ls generalizing l offset line with
  | nil =>
    obtain rfl : l = last := Option.some.inj hlast
    simp [stop, span]
  | cons l' ls ih =>
    obtain ⟨-, -, hmore⟩ := h
    rw [List.getLast?_cons_cons] at hlast
    rw [ih hmore hlast, hmore.1, stop]
    simp only [span, List.flatMap_cons, byteLength_append]
    omega

/-- **The text from the first of some lexemes to the last is that piece of the source.** -/
theorem InSource.slice_span {first last : Lexeme τ} {ls : List (Lexeme τ)}
    (h : InSource source ls) (hfirst : ls.head? = some first) (hlast : ls.getLast? = some last) :
    Slice source first.start last.stop (span ls) := by
  cases ls with
  | nil => cases hfirst
  | cons l ls =>
    obtain rfl : l = first := Option.some.inj hfirst
    obtain ⟨before, after, hsource, hlocated⟩ := h
    rw [render_eq_span, ← List.append_assoc] at hsource
    refine ⟨before ++ l.skipped, after, hsource, ?_, (hlocated.stop_getLast hlast).symm⟩
    rw [byteLength_append, hlocated.1]

theorem inSource_scan (source : List Char) : InSource source (scan source) := by
  obtain ⟨tail, -, hsource, -⟩ := separated_scanFrom 0 1 source
  exact ⟨[], tail, hsource, located_scanFrom 0 1 source⟩

/-- Tokens do not matter to the places of lexemes. -/
theorem located_some_iff {ls : Lexemes} :
    Located offset line (ls.map fun l => { l with token := some l.token }) ↔
      Located offset line ls := by
  induction ls generalizing offset line with
  | nil => exact Iff.rfl
  | cons l ls ih => exact and_congr_right fun _ => and_congr_right fun _ => ih

theorem inSource_of_tokens {ls : Lexemes} (h : Parser.tokens (scan source) = .ok ls) :
    InSource source ls := by
  obtain ⟨before, after, hsource, hlocated⟩ := inSource_scan source
  rw [(token_of_tokens h).1] at hsource
  rw [tokens_eq_ok_iff.mp h] at hlocated
  exact ⟨before, after, hsource, located_some_iff.mp hlocated⟩

end Lexeme

end QubitRouting
