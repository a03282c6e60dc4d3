import QubitRouting.Proofs.Circuit.Grammar
import QubitRouting.Proofs.Circuit.Words

/-!
# What a source can name

The names, paths and parameters in a parsed program are not arbitrary texts: each was a word of the
source, or a row of words, and would be read as the same word anywhere else where a word ends.
`Program.legible_of_parse` collects what is known of every statement of a parsed program.
-/

set_option autoImplicit false

namespace QubitRouting

/-- A text that is read as an identifier. -/
structure IsName (name : String) : Prop where
  chars : ∃ c cs, name.toList = c :: cs ∧ Token.isIdentifierStart c ∧ cs.all Token.isIdentifierRest
  notKeyword : Keyword.ofText? name = none

/-- A text that is kept as the parameters of a gate. -/
def IsParams (text : List Char) : Prop :=
  ∃ ls : Lexemes, ls ≠ [] ∧ Lexeme.span ls = text ∧ Lexeme.Scanned ls [')'] ∧
    Parser.Balanced 0 (ls.map (·.token))

/-- A version that a program can have. -/
def IsVersion (version : String) : Prop := ∃ d, d < 10 ∧ version = s!"2.{d}"

namespace Operand

structure Legible (o : Operand) : Prop where
  register : IsName o.register
  inRange : o.InRange

end Operand

structure RegisterDecl.Legible (d : RegisterDecl) : Prop where
  name : IsName d.name
  size : d.size < Parser.indexLimit

structure GateCall.Legible (g : GateCall) : Prop where
  name : IsName g.name
  supported : g.name ∉ Parser.unsupportedWords
  params : ∀ text, g.params = some text → IsParams text.toList
  nonempty : g.operands ≠ []
  few : g.operands.length ≤ maxGateOperands
  operands : ∀ o ∈ g.operands, o.Legible

/-- A statement that can be read from some source. -/
def Statement.Legible : Statement → Prop
  | .includes path => '"' ∉ path.toList
  | .qreg d | .creg d => d.Legible
  | .gate g => g.Legible
  | .measure q b => q.Legible ∧ b.Legible
  | .reset q => q.Legible
  | .barrier qs => ∀ q ∈ qs, q.Legible

namespace Token

/-- The texts of tokens. -/
inductive Form : List Char → Token → Prop where
  | keyword {c : Char} {cs : List Char} {k : Keyword} (hc : isIdentifierStart c)
      (hword : Keyword.ofText? (String.ofList (c :: cs)) = some k) : Form (c :: cs) (.keyword k)
  | identifier {c : Char} {cs : List Char} (hc : isIdentifierStart c)
      (hword : Keyword.ofText? (String.ofList (c :: cs)) = none) :
      Form (c :: cs) (.identifier (String.ofList (c :: cs)))
  | integer {c : Char} {cs : List Char} (hdigits : (c :: cs).all Char.isDigit)
      (hlt : Decimal.natOfDigits (c :: cs) < integerLimit) :
      Form (c :: cs) (.integer (Decimal.natOfDigits (c :: cs)))
  | real {c : Char} {cs : List Char} (hc : c.isDigit || c = '.') :
      Form (c :: cs) (.real (Binary64.ofDecimal (Decimal.ofText (c :: cs))))
  | string {cs : List Char} (hlast : cs.getLast? = some '"') :
      Form ('"' :: cs) (.string (String.ofList cs.dropLast))
  | symbol {w : List Char} {s : Symbol} (hw : Symbol.ofText? (String.ofList w) = some s) :
      Form w (.symbol s)

variable {w : List Char} {t : Token}

theorem form_of_ofText? (h : ofText? w = some t) : Form w t := by
  cases w with
  | nil => cases h
  | cons c cs =>
    simp only [ofText?] at h
    split at h
    · rename_i hc
      obtain rfl := Option.some.inj h
      split
      · exact .keyword hc ‹_›
      · exact .identifier hc ‹_›
    · split at h
      · rename_i hdigits
        split at h
        · obtain rfl := Option.some.inj h
          exact .integer (by simpa using hdigits) ‹_›
        · cases h
      · split at h
        · rename_i hreal
          obtain rfl := Option.some.inj h
          refine .real ?_
          simp only [Bool.or_eq_true, Bool.and_eq_true] at hreal ⊢
          exact hreal.imp_right And.left
        · split at h
          · rename_i hc
            subst hc
            split at h
            · obtain rfl := Option.some.inj h
              exact .string ‹_›
            · cases h
          · obtain ⟨s, hs, rfl⟩ := Option.map_eq_some_iff.mp h
            exact .symbol hs

theorem eq_text_of_symbol {s : Symbol} (h : ofText? w = some (.symbol s)) : w = s.text.toList := by
  cases form_of_ofText? h with
  | symbol hw =>
    have htext := List.find?_some hw
    rw [decide_eq_true_eq] at htext
    rw [htext, String.toList_ofList]

end Token

namespace Lexeme

variable {w k : List Char}

theorem isName_of_cut {name : String} (hcut : Cut w k)
    (htoken : Token.ofText? w = some (.identifier name)) : IsName name := by
  obtain ⟨c, cs, hw, -, hextent⟩ := hcut
  cases Token.form_of_ofText? htoken with
  | identifier hc hword =>
    obtain ⟨rfl, rfl⟩ := List.cons.inj hw
    refine ⟨⟨_, _, String.toList_ofList, hc, ?_⟩, hword⟩
    unfold extent at hextent
    rw [if_pos hc] at hextent
    -- what is taken has the length of the word, and so is the word
    have htaken := (List.prefix_of_prefix_length_le (List.takeWhile_prefix Token.isIdentifierRest)
      (List.prefix_append _ k) hextent.le).eq_of_length hextent
    rw [← htaken]
    exact List.all_takeWhile

theorem not_mem_path_of_cut {path : String} (hcut : Cut w k)
    (htoken : Token.ofText? w = some (.string path)) : '"' ∉ path.toList := by
  obtain ⟨c, cs, hw, -, hextent⟩ := hcut
  cases Token.form_of_ofText? htoken with
  | string hlast =>
    obtain ⟨rfl, rfl⟩ := List.cons.inj hw
    obtain ⟨body, rfl, hbody⟩ := exists_body_of_extent hextent hlast
    rwa [String.toList_ofList, List.dropLast_concat]

variable {ls ls' rest : Lexemes} {l : Lexeme Token}

theorem Scanned.of_append (h : Scanned (ls ++ ls') k) : Scanned ls' k :=
  (scanned_append.mp h).2

theorem Scanned.head (h : Scanned (l :: ls) k) :
    Gap false l.skipped ∧ Cut l.text (render (ls.map word) k) ∧
      Token.ofText? l.text = some l.token :=
  ⟨h.separated.1, h.separated.2.1, h.token l List.mem_cons_self⟩

theorem Gap.neutral_append {g : List Char} (hg : Gap false g) (hk : Neutral k) :
    Neutral (g ++ k) := by
  cases hg with
  | nil => exact hk
  | @blank c g hc _ =>
    simp only [isBlank, Bool.or_eq_true, decide_eq_true_eq] at hc
    obtain ((rfl | rfl) | rfl) | rfl := hc <;> exact ⟨by decide, by decide⟩
  | slashes => exact ⟨by decide, by decide⟩

end Lexeme

namespace Parser

open Lexeme (Scanned)

variable {ls rest : Lexemes} {k : List Char}

theorem Spells.scanned {ts : List Token} (h : Spells ts ls rest) (hs : Scanned ls k) :
    Scanned rest k := by
  obtain ⟨front, rfl, -⟩ := h
  exact hs.of_append

theorem OperandAt.legible {o : Operand} (h : OperandAt o ls rest) (hs : Scanned ls k) :
    o.Legible := by
  obtain ⟨ts, hts⟩ := o.tokens_eq_cons
  obtain ⟨l, mid, rfl, hl, -⟩ := spells_cons.mp (hts ▸ h.spells)
  obtain ⟨-, hcut, htoken⟩ := hs.head
  exact ⟨Lexeme.isName_of_cut hcut (hl ▸ htoken), h.inRange⟩

theorem OperandsAt.legible {os : List Operand} (h : OperandsAt os ls rest) (hs : Scanned ls k) :
    os ≠ [] ∧ (∀ o ∈ os, o.Legible) ∧ Scanned rest k := by
  induction h with
  | one h _ => exact ⟨by simp, by simpa using h.legible hs, h.spells.scanned hs⟩
  | cons h _ _ ih =>
    obtain ⟨-, hos, hrest⟩ := ih (List.singleton_append ▸ h.spells.scanned hs).of_append
    exact ⟨by simp, List.forall_mem_cons.mpr ⟨h.legible hs, hos⟩, hrest⟩

/-- Lexemes before a closing parenthesis can stand before any other one. -/
theorem isParams_of_scanned {inner : Lexemes} {close : Lexeme Token} {text : String}
    (hinner : Balanced 0 (inner.map (·.token))) (hclose : close.token = .symbol .closeParen)
    (hs : Scanned (inner ++ close :: ls) k) (htext : paramsOf inner = some text) :
    IsParams text.toList := by
  unfold paramsOf at htext
  split at htext
  · cases htext
  · rename_i hne
    obtain rfl := Option.some.inj htext
    obtain ⟨hinnerScanned, hrest⟩ := Lexeme.scanned_append.mp hs
    obtain ⟨hgap, -, htoken⟩ := hrest.head
    have hparen := Token.eq_text_of_symbol (hclose ▸ htoken)
    refine ⟨inner, by simpa using hne, String.toList_ofList.symm, ?_, hinner⟩
    refine hinnerScanned.congr (hgap.neutral_append ?_) (by decide) (by decide)
    show Lexeme.Neutral (close.text ++ _)
    rw [hparen]
    exact ⟨by decide, by decide⟩

theorem TailAt.legible {params : Option String} {os : List Operand} (h : TailAt params os ls rest)
    (hs : Scanned ls k) :
    (∀ text, params = some text → IsParams text.toList) ∧ os ≠ [] ∧ (∀ o ∈ os, o.Legible) ∧
      Scanned rest k := by
  cases h with
  | plain h =>
    refine ⟨fun text htext => ?_, h.legible hs⟩
    cases htext
  | @params _ l close inner ls _ hl hinner hclose h =>
    have hmore : Scanned (inner ++ close :: ls) k := (List.singleton_append ▸ hs).of_append
    have hops : Scanned ls k := (List.append_cons inner close ls ▸ hmore).of_append
    exact ⟨fun text htext => isParams_of_scanned hinner hclose hmore htext, h.legible hops⟩

theorem BodyAt.legible {st : Statement} (h : BodyAt st ls rest) (hs : Scanned ls k) :
    st.Legible ∧ Scanned rest k := by
  have hone : 1 < indexLimit := by decide
  have hbehind {l : Lexeme Token} {ls : Lexemes} (hs : Scanned (l :: ls) k) : Scanned ls k :=
    (List.singleton_append ▸ hs).of_append
  have hdecl {o : Operand} (ho : o.Legible) : RegisterDecl.Legible ⟨o.register,
      o.index.getD 1⟩ := by
    refine ⟨ho.register, ?_⟩
    cases hi : o.index with
    | none => exact hone
    | some i => exact ho.inRange i hi
  cases h with
  | includes _ h =>
    obtain ⟨l, rfl, hl⟩ := spells_one.mp h
    obtain ⟨-, hcut, htoken⟩ := (hbehind hs).head
    exact ⟨Lexeme.not_mem_path_of_cut hcut (hl ▸ htoken), hbehind (hbehind hs)⟩
  | qreg _ h | creg _ h => exact ⟨hdecl (h.legible (hbehind hs)), h.spells.scanned (hbehind hs)⟩
  | measure _ hq _ hb =>
    have hbit := hbehind (hq.spells.scanned (hbehind hs))
    exact ⟨⟨hq.legible (hbehind hs), hb.legible hbit⟩, hb.spells.scanned hbit⟩
  | reset _ h => exact ⟨h.legible (hbehind hs), h.spells.scanned (hbehind hs)⟩
  | barrier _ h => exact ⟨(h.legible (hbehind hs)).2.1, (h.legible (hbehind hs)).2.2⟩
  | gate hl _ hname hfew h =>
    obtain ⟨-, hcut, htoken⟩ := hs.head
    obtain ⟨hparams, hne, hos, hrest⟩ := h.legible (hbehind hs)
    exact ⟨⟨Lexeme.isName_of_cut hcut (hl ▸ htoken), hname, hparams, hne, hfew, hos⟩, hrest⟩

theorem StatementsAt.legible {sts : List Statement} (h : StatementsAt sts ls) (hs : Scanned ls k) :
    ∀ st ∈ sts, st.Legible := by
  induction h with
  | nil => simp
  | cons h _ ih =>
    obtain ⟨close, -, hbody⟩ := h
    obtain ⟨hst, hrest⟩ := hbody.legible hs
    exact List.forall_mem_cons.mpr ⟨hst, ih (List.singleton_append ▸ hrest).of_append⟩

/-- A number that starts with `2.` has two in front of the point. -/
theorem eq_two_of_prefix {a : Nat} {text : List Char}
    (h : ['2', '.'] <+: Nat.toDigits 10 a ++ '.' :: text) : a = 2 := by
  obtain ⟨rest, hrest⟩ := h
  cases hdigits : Nat.toDigits 10 a with
  | nil => exact absurd hdigits Nat.toDigits_ne_nil
  | cons d ds =>
    rw [hdigits] at hrest
    obtain ⟨rfl, hpoint⟩ := List.cons.inj hrest
    cases ds with
    | nil =>
      have hvalue := Nat.ofDigitChars_ten_toDigits (n := a)
      rw [hdigits] at hvalue
      exact hvalue.symm
    | cons e es =>
      obtain ⟨rfl, -⟩ := List.cons.inj hpoint
      -- a point among the digits
      have hmem : '.' ∈ Nat.toDigits 10 a := by simp [hdigits]
      have hdigit := Nat.isDigit_of_mem_toDigits (by decide) (by decide) hmem
      exact absurd hdigit (by decide)

/-- Of all whole numbers, only two starts with `2.` when a point follows. -/
theorem supported_iff {a : Nat} {text : String} :
    Supported (toString a ++ ("." ++ text)) ↔ a = 2 := by
  constructor
  · intro h
    rw [Supported, String.toList_append, Nat.toString_eq_ofList_toDigits, String.toList_ofList,
      String.toList_append] at h
    exact eq_two_of_prefix h
  · rintro rfl
    rw [Supported, String.toList_append, String.toList_append]
    exact ⟨text.toList, rfl⟩

theorem isVersion_of_supported {t : Token} {v : String} (h : versionText t = some v)
    (hv : Supported v) : IsVersion v := by
  cases t with
  | real value =>
    obtain rfl := Option.some.inj h
    cases value with
    | infinite => exact absurd hv (by rw [Supported, Binary64.renderTenths]; decide)
    | finite mantissa exponent =>
      obtain ⟨tenths, htenths⟩ : ∃ tenths : Nat, (Binary64.finite mantissa exponent).renderTenths =
          toString (tenths / 10) ++ ("." ++ toString (tenths % 10)) :=
        ⟨_, String.append_assoc⟩
      rw [htenths] at hv ⊢
      rw [supported_iff.mp hv]
      exact ⟨tenths % 10, Nat.mod_lt _ (by decide), rfl⟩
  | integer value =>
    obtain rfl := Option.some.inj h
    have hv : Supported (toString value ++ ("." ++ "0")) := hv
    obtain rfl := supported_iff.mp hv
    exact ⟨0, by decide, rfl⟩
  | keyword | symbol | string | identifier => cases h

end Parser

theorem Program.legible_of_parse {source : String} {p : Program} (h : parse source = .ok p) :
    IsVersion p.version ∧ ∀ st ∈ p.statements, st.Legible := by
  obtain ⟨ls, hls, hprogram⟩ := Program.parse_eq_ok_iff.mp h
  obtain ⟨tail, hs⟩ := Lexeme.scanned_of_tokens hls
  cases hprogram with
  | @intro head number close ls _ hversion hsupported _ hstatements =>
    have hmore : Lexeme.Scanned ([head, number, close] ++ ls) tail := hs
    exact ⟨Parser.isVersion_of_supported hversion hsupported, hstatements.legible hmore.of_append⟩

end QubitRouting
