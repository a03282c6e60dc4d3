import QubitRouting.Proofs.Circuit.Lexing

/-!
# Spacing

The tokens of a source do not depend on the blanks between them. What a word is read as may well
depend on the text behind it: `1e+x` is four words, and `1e+5` is one. But a word that was read as a
token is a token also by itself (`Cut.alone`), since its pattern reaches to its end and nothing is
there to reach for; and a blank continues no word. So the words of a source may be set apart by any
blanks (`spaced`) and are found again.
-/

set_option autoImplicit false

namespace QubitRouting

theorem Pattern.exists_of_real {w : List Char}
    (h : w ∈ pointed.language + fraction.language + scaled.language) :
    ∃ q : Pattern, w ∈ q.language := by
  rcases h with (h | h) | h
  · exact ⟨pointed, h⟩
  · exact ⟨fraction, h⟩
  · exact ⟨scaled, h⟩

theorem Token.WrittenAs.exists_pattern {t : Token} {w : List Char} (h : t.WrittenAs w) :
    ∃ q : Pattern, w ∈ q.language := by
  cases t with
  | keyword k => exact ⟨.keyword k, h⟩
  | symbol s => exact ⟨.symbol s, h⟩
  | real value => exact Pattern.exists_of_real h.1
  | integer value => exact ⟨.integer, h.1⟩
  | string content => exact ⟨.string, h.1⟩
  | identifier name => exact ⟨.identifier, h.1⟩

namespace Lexeme

/-! ## Words by themselves -/

section

variable {w k : List Char} {t : Token}

theorem Solid.of_append {c : Char} {cs : List Char} (h : Solid (c :: cs ++ k)) :
    Solid (c :: cs) := by
  rw [List.cons_append] at h
  obtain ⟨hblank, hslashes⟩ := solid_cons.mp h
  refine solid_cons.mpr ⟨hblank, fun hcomment => hslashes ⟨hcomment.1, ?_⟩⟩
  obtain ⟨rest, rfl⟩ := List.head?_eq_some_iff.mp hcomment.2
  rfl

/-- A token is the same token with nothing behind it. -/
theorem Cut.alone (h : Cut w k) (htoken : Token.ofText? w = some t) : Cut w [] := by
  obtain ⟨q, hq⟩ := (h.ofText?_eq_some_iff.mp htoken).exists_pattern
  obtain ⟨c, cs, rfl, hsolid, -⟩ := h
  have hlong : cs.length + 1 ≤ extent c cs + 1 :=
    length_le_extent hsolid.of_append hq (List.append_nil _)
  have hshort : extent c cs ≤ cs.length := extent_le c cs
  refine ⟨c, cs, rfl, ?_, ?_⟩
  · rw [List.append_nil]
    exact hsolid.of_append
  · rw [List.append_nil]
    omega

/-! ## Blanks -/

theorem neutral_of_isBlank (h : ∀ c ∈ k.head?, isBlank c) : Neutral k ∧ k.head? ≠ some '/' := by
  cases k with
  | nil => exact ⟨trivial, by simp⟩
  | cons c cs =>
    have hc : isBlank c := h c rfl
    simp only [isBlank, Bool.or_eq_true, decide_eq_true_eq] at hc
    rcases hc with ((rfl | rfl) | rfl) | rfl
    all_goals exact ⟨⟨by decide, by decide⟩, by simp⟩

theorem Cut.before_blank (h : Cut w []) (htoken : Token.ofText? w = some t)
    (hk : ∀ c ∈ k.head?, isBlank c) : Cut w k := by
  obtain ⟨hneutral, hslash⟩ := neutral_of_isBlank hk
  exact h.congr (x := []) htoken trivial hneutral hslash

theorem gap_of_isBlank {g : List Char} (h : ∀ c ∈ g, isBlank c) : Gap false g := by
  induction g with
  | nil => exact .nil
  | cons c g ih =>
    obtain ⟨hc, hg⟩ := List.forall_mem_cons.mp h
    exact .blank hc (ih hg)

end

/-! ## Words set apart -/

/-- The slices `s₁ … sₙ` with gaps around them: `w₀ s₁ w₁ s₂ … sₙ wₙ`. -/
def spaced (w : Nat → List Char) : List (List Char) → List Char
  | [] => w 0
  | s :: slices => w 0 ++ (s ++ spaced (fun i => w (i + 1)) slices)

/-- The gaps consist of blanks, and those between two slices are not empty. -/
structure SetsApart (w : Nat → List Char) (n : Nat) : Prop where
  blank : ∀ i ≤ n, ∀ c ∈ w i, c ∈ [' ', '\t', '\r', '\n']
  apart : ∀ i, 0 < i → i < n → w i ≠ []

section

variable {w : Nat → List Char} {slices : List (List Char)} {n : Nat}

theorem SetsApart.isBlank_of_mem (h : SetsApart w n) {i : Nat} (hi : i ≤ n) :
    ∀ c ∈ w i, isBlank c := by
  intro c hc
  have hmem := h.blank i hi c hc
  simp only [List.mem_cons, List.not_mem_nil, or_false] at hmem
  rcases hmem with rfl | rfl | rfl | rfl <;> rfl

theorem SetsApart.tail (h : SetsApart w (n + 1)) : SetsApart (fun i => w (i + 1)) n where
  blank i hi := h.blank (i + 1) (Nat.succ_le_succ hi)
  apart i _ hi := h.apart (i + 1) (Nat.succ_pos i) (Nat.succ_lt_succ hi)

/-- What follows a slice starts with a blank. -/
theorem SetsApart.isBlank_head (h : SetsApart w (slices.length + 1)) :
    ∀ c ∈ (spaced (fun i => w (i + 1)) slices).head?, isBlank c := by
  intro c hc
  have hblank := h.isBlank_of_mem (Nat.le_add_left 1 slices.length) c
  cases slices with
  | nil => exact hblank (List.mem_of_head? hc)
  | cons s slices =>
    obtain ⟨d, ds, hgap⟩ := List.exists_cons_of_ne_nil (h.apart 1 Nat.one_pos (by simp))
    have hd : (spaced (fun i => w (i + 1)) (s :: slices)).head? = some d := by
      rw [spaced, hgap]
      rfl
    obtain rfl : d = c := Option.some.inj (hd.symm.trans hc)
    exact hblank (by rw [hgap]; exact List.mem_cons_self)

/-- Tokens that are set apart are words of the text. -/
theorem exists_separated (h : SetsApart w slices.length)
    (hslices : ∀ s ∈ slices, Cut s [] ∧ ∃ t, Token.ofText? s = some t) :
    ∃ ws tail, spaced w slices = render ws tail ∧ Separated ws tail ∧ ws.map Prod.snd = slices ∧
      Gap false tail := by
  induction slices generalizing w with
  | nil => exact ⟨[], w 0, rfl, trivial, rfl, gap_of_isBlank (h.isBlank_of_mem (Nat.le_refl 0))⟩
  | cons s slices ih =>
    obtain ⟨⟨hcut, t, ht⟩, hrest⟩ := List.forall_mem_cons.mp hslices
    obtain ⟨ws, tail, htext, hseparated, hwords, htail⟩ := ih h.tail hrest
    have hfollow : Cut s (render ws tail) := by
      rw [← htext]
      exact hcut.before_blank ht h.isBlank_head
    have hgap : Gap false (w 0) := gap_of_isBlank (h.isBlank_of_mem (Nat.zero_le _))
    refine ⟨(w 0, s) :: ws, tail, ?_, ⟨hgap, hfollow, hseparated⟩, congrArg _ hwords, htail⟩
    rw [spaced, htext]
    rfl

end

theorem cut_of_mem_scan {source : List Char} {l : Lexeme (Option Token)} (hl : l ∈ scan source) :
    ∃ follow, Cut l.text follow := by
  obtain ⟨tail, -, hsource, hseparated⟩ := separated_scanFrom 0 1 source
  obtain ⟨-, after, -, -, hcut⟩ :=
    exists_cut_of_mem [] hsource (located_scanFrom 0 1 source) hseparated l hl
  exact ⟨after, hcut⟩

/-- **Tokens do not depend on spacing.** The slices that a source was cut into, set apart by any
blanks, are read as the same tokens. -/
theorem tokens_spaced (source : List Char) (ts : List Token) (w : Nat → List Char)
    (htokens : (scan source).map (·.token) = ts.map some) (hw : SetsApart w ts.length) :
    (scan (spaced w ((scan source).map (·.text)))).map (·.token) = ts.map some ∧
      (scan (spaced w ((scan source).map (·.text)))).map (·.text) = (scan source).map (·.text) := by
  have hcount : ((scan source).map (·.text)).length = ts.length := by
    simpa using congrArg List.length htokens
  have hread : (scan source).map (·.token) = ((scan source).map (·.text)).map Token.ofText? := by
    rw [List.map_map]
    exact List.map_congr_left (token_scanFrom 0 1 source)
  have hslices : ∀ s ∈ (scan source).map (·.text), Cut s [] ∧ ∃ t, Token.ofText? s = some t := by
    intro s hs
    have hmem : Token.ofText? s ∈ ts.map some := by
      rw [← htokens, hread]
      exact List.mem_map_of_mem hs
    obtain ⟨t, -, ht⟩ := List.mem_map.mp hmem
    obtain ⟨l, hl, rfl⟩ := List.mem_map.mp hs
    obtain ⟨follow, hcut⟩ := cut_of_mem_scan hl
    exact ⟨hcut.alone ht.symm, t, ht.symm⟩
  obtain ⟨ws, tail, htext, hseparated, hwords, htail⟩ := exists_separated (hcount ▸ hw) hslices
  have hend : gap false (tail ++ []) = tail := htail.gap_append trivial
  rw [List.append_nil] at hend
  obtain ⟨found, offset, line, hscan, hfound, htoken⟩ := scanFrom_render hseparated 0 1
  rw [scanFrom_gap hend, List.append_nil] at hscan
  have htexts : found.map (·.text) = (scan source).map (·.text) := by
    rw [← hwords, ← hfound, List.map_map]
    rfl
  rw [htext, scan, hscan, ← htokens, hread, ← htexts]
  refine ⟨?_, rfl⟩
  rw [List.map_map]
  exact List.map_congr_left htoken

/-- Digits in front of what is no exponent, a real that ends with its point, a string with slashes
in it and a single slash, each on a line of its own. -/
theorem tokens_spaced_lines :
    (scan "1e+x 2.q\"//\"/".toList).map (·.text) =
        ["1".toList, "e".toList, "+".toList, "x".toList, "2.".toList, "q".toList, "\"//\"".toList,
        "/".toList] ∧
      (scan (spaced (List.replicate · '\n') ((scan "1e+x 2.q\"//\"/".toList).map (·.text)))).map
      (·.token) =
        [Token.integer 1, .identifier "e", .symbol .plus, .identifier "x",
        .real (Binary64.ofDecimal ⟨2, 0⟩),
          .identifier "q", .string "//", .symbol .slash].map some := by
  refine ⟨by decide +kernel,
    (tokens_spaced _ _ _ (by decide +kernel) ⟨fun i _ c hc => ?_, fun i hi _ => ?_⟩).1⟩
  · rw [List.eq_of_mem_replicate hc]
    decide
  · exact List.ne_nil_of_length_pos (by rwa [List.length_replicate])

end Lexeme

end QubitRouting
