import MiniJava.Proofs.Places.Check
import MiniJava.Proofs.Places.Generate
import MiniJava.Proofs.Places.Resolve
import MiniJava.Proofs.Scope.Journal
import MiniJava.Proofs.Syntax.Declarations
import MiniJava.Proofs.Syntax.Faults
/-!
Layout never matters. Two sources with the same symbols, which differ in blanks, line ends and
comments only, have the same code, or no code and diagnostics with the same texts.
-/
namespace MiniJava

/-! ### Symbols by class and text -/

/-- What the scanner says of a character that starts no symbol: half of an operator is incomplete,
any other character is not recognized. -/
def ScanFault.Apt : ScanFault → Prop
  | unrecognized c => c ≠ '&' ∧ c ≠ '|'
  | incomplete c => c = '&' ∨ c = '|'
  | unclosedComment => True

/-- The fault of a piece of source. -/
def ScanFault.ofText (text : String) : ScanFault :=
  if text = "/*" then unclosedComment
  else
    let c := text.toList.headD ' '
    if c = '&' ∨ c = '|' then incomplete c else unrecognized c

theorem ScanFault.ofText_text {fault : ScanFault} (h : fault.Apt) : ofText fault.text = fault := by
  have hsingleton (c : Char) : String.singleton c ≠ "/*" := by
    intro heq
    have hlist : [c] = ['/', '*'] := by rw [← String.toList_singleton, heq]; rfl
    exact List.cons_ne_nil _ _ (List.cons.inj hlist).2.symm
  cases fault with
  | unrecognized c =>
    have hc : ¬(c = '&' ∨ c = '|') := fun hc => hc.elim h.1 h.2
    simp [ofText, text, hsingleton, hc]
  | incomplete c =>
    have hc : c = '&' ∨ c = '|' := h
    simp [ofText, text, hsingleton, hc]
  | unclosedComment => rfl

namespace Symbol

/-- A symbol that the scanner gives. -/
def Apt : Symbol → Prop
  | error fault => fault.Apt
  | _ => True

def punct? (text : String) : Option Punct :=
  [Punct.dot, .comma, .semicolon, .leftParen, .rightParen, .leftBracket, .rightBracket, .leftBrace,
    .rightBrace,
    .assign].find? (·.text == text)

/-- The symbol with a class and a text. -/
def ofKind (kind text : String) : Symbol :=
  if kind = "end of text" then endOfText
  else if kind = "identifier" then identifier text
  else if kind = "integer" then integer text
  else if kind = "unary operator" then not
  else if kind = "error" then error (.ofText text)
  else if kind = "binary operator" then binary ((BinaryOp.ofText? text).getD .or)
  else
    match Keyword.ofText? kind with
    | some k => keyword k
    | none => punct ((punct? kind).getD .dot)

theorem ofKind_kindName {s : Symbol} (h : s.Apt) : ofKind s.kindName s.text = s := by
  cases s with
  | endOfText => decide
  | identifier name => simp [ofKind, kindName, text]
  | integer digits => simp [ofKind, kindName, text]
  | keyword k => cases k <;> decide
  | punct p => cases p <;> decide
  | binary op => cases op <;> decide
  | not => decide
  | error fault =>
    have hfault : ScanFault.ofText fault.text = fault := ScanFault.ofText_text h
    simp [ofKind, kindName, text, hfault]

end Symbol

namespace Scan

theorem longestRun_apt {c : Char} (hand : c ≠ '&') (hor : c ≠ '|')
    (cs : List Char) : (longestRun c cs).1.Apt := by
  unfold longestRun wordSymbol
  split
  · trivial
  · split
    · split <;> trivial
    · exact ⟨hand, hor⟩

theorem lexeme_apt (c : Char) (cs : List Char) : (lexeme c cs).1.Apt := by
  have hhalf {second : Char} {single double : Symbol} (hs : single.Apt) (hd : double.Apt) :
      (oneOrTwo second single double cs).1.Apt := by
    rcases oneOrTwo_symbol second single double cs with h | h
    · rwa [h]
    · rwa [h]
  fun_cases lexeme c cs
  case case18 => exact hhalf (.inl rfl) trivial
  case case19 => exact hhalf (.inr rfl) trivial
  case case20 => exact longestRun_apt ‹_› ‹_› cs
  case case14 | case15 | case16 | case17 => exact hhalf trivial trivial
  all_goals trivial

theorem tokens_apt {source : Bytes} {t : Token} (ht : t ∈ tokens source) : t.symbol.Apt := by
  rcases symbol_of_mem_tokens ht with heq | heq | ⟨c, cs, heq⟩
  · rw [heq]
    trivial
  · rw [heq]
    trivial
  · rw [heq]
    exact lexeme_apt c cs

/-- The class and the text of a token. -/
def word (t : Token) : String × String := (t.symbol.kindName, t.symbol.text)

theorem symbols_of_words {source source' : Bytes}
    (h : (tokens source).map word = (tokens source').map word) :
    (tokens source).map (·.symbol) = (tokens source').map (·.symbol) := by
  have hrecover (source : Bytes) :
      (tokens source).map (·.symbol) = ((tokens source).map word).map fun w =>
        Symbol.ofKind w.1 w.2 := by
    rw [List.map_map]
    refine List.map_congr_left fun t ht => ?_
    rw [Function.comp_apply, word, Symbol.ofKind_kindName (tokens_apt ht)]
  rw [hrecover, hrecover, h]

end Scan

/-! ### Reading -/

/-- What is said about a fault hangs on the symbol where it is found. -/
theorem SyntaxError.text_message {e e' : SyntaxError} (hfault : e.fault = e'.fault)
    (hsymbol : e.place.current.symbol = e'.place.current.symbol) :
    e.message.text = e'.message.text := by
  obtain ⟨fault, previous, ⟨symbol, span⟩, upcoming⟩ := e
  obtain ⟨fault', previous', ⟨symbol', span'⟩, upcoming'⟩ := e'
  cases hfault
  cases hsymbol
  cases symbol <;> rfl

/-- Reading does not look at lines: from tokens with the same symbols it reads the same program up
to lines, or stops with the same fault at the same symbol. -/
theorem Program.ofTokens_of_symbols {ts ts' : List Token} (hts : WholeText ts)
    (h : ts.map (·.symbol) = ts'.map (·.symbol)) :
    (∃ p q, ofTokens ts = .ok p ∧ ofTokens ts' = .ok q ∧ p.shape = q.shape) ∨
      ∃ e e', ofTokens ts = .error e ∧ ofTokens ts' = .error e' ∧
      e.message.text = e'.message.text := by
  have hts' : WholeText ts' := by rwa [WholeText, ← h]
  obtain ⟨body, hbody, hnot⟩ := hts
  have hstart : (Cursor.start ts).symbols = body ++ [.endOfText] :=
    (Cursor.symbols_start (WholeText.ne_nil ⟨body, hbody, hnot⟩)).trans hbody
  have hstart' : (Cursor.start ts').symbols = body ++ [.endOfText] :=
    (Cursor.symbols_start hts'.ne_nil).trans (h.symm.trans hbody)
  have hdeep {c d : Cursor} (hc : c.symbols = body ++ [.endOfText]) :
      Parser.bounded Parser.classes c ≠ .error .tooDeep d := by
    intro hrun
    exact (Parser.started_of_program ⟨body, hc, hnot⟩ (Parser.program_of_error hrun)).1 rfl
  have hagree :=
    Parser.twins_wholeClasses.agree (w := .none) (Cursor.start ts) (Cursor.start ts') rfl
    ⟨body, hstart, hstart'⟩ (Nat.succ_pos _)
  rw [ofTokens, ofTokens]
  cases hrun : Parser.bounded Parser.classes (Cursor.start ts) with
  | ok cs d =>
    cases hrun' : Parser.bounded Parser.classes (Cursor.start ts') with
    | ok cs' d' =>
      rw [hrun, hrun'] at hagree
      obtain ⟨hshared, hshape⟩ := hagree
      rw [Parser.program_of_ok hrun, Parser.program_of_ok hrun', hshared.current]
      by_cases hend : d.current.symbol = .endOfText
      · rw [if_pos hend, if_pos hend]
        exact .inl ⟨_, _, rfl, rfl, by simp only [shape, hshape]⟩
      · rw [if_neg hend, if_neg hend]
        exact .inr ⟨_, _, rfl, rfl, SyntaxError.text_message rfl hshared.current.symm⟩
    | error e' d' =>
      rw [hrun, hrun'] at hagree
      obtain rfl : e' = .tooDeep := hagree
      exact absurd hrun' (hdeep hstart')
  | error e d =>
    cases hrun' : Parser.bounded Parser.classes (Cursor.start ts') with
    | ok cs' d' =>
      rw [hrun, hrun'] at hagree
      obtain rfl : e = .tooDeep := hagree
      exact absurd hrun (hdeep hstart)
    | error e' d' =>
      rw [hrun, hrun'] at hagree
      rcases hagree with rfl | rfl | ⟨hshared, hfault⟩
      · exact absurd hrun (hdeep hstart)
      · exact absurd hrun' (hdeep hstart')
      · rw [Parser.program_of_error hrun, Parser.program_of_error hrun']
        exact .inr ⟨_, _, rfl, rfl, SyntaxError.text_message hfault hshared.current.symm⟩

/-! ### Diagnostics -/

namespace Compile

/-- The texts of the diagnostics among events. -/
def texts (events : List Event) : List Bytes := (events.filterMap Event.message?).map Message.text

theorem texts_reports (errors : List TypeError) :
    texts (errors.map fun e => .report e.message) =
      (errors.map TypeError.fault).map fun fault =>
      Bytes.ofString ("Type error: " ++ fault.text) := by
  rw [texts, List.filterMap_map, List.map_map]
  induction errors with
  | nil => rfl
  | cons e errors ih => exact congrArg (Bytes.ofString ("Type error: " ++ e.fault.text) :: ·) ih

variable (p : Program)

theorem generate_erase (entry : Option MethodKey) : generate p.erase entry = generate p entry := by
  rw [generate, generate, p.generate_erase]

theorem check_erase :
    (check p.erase).2 = (check p).2 ∧ texts (check p.erase).1 = texts (check p).1 := by
  have hfaults := p.faults_check_erase
  have hempty : p.erase.check.errors.isEmpty = p.check.errors.isEmpty := by
    rw [← List.isEmpty_map, hfaults, List.isEmpty_map]
  simp only [check, hempty, p.entry_check_erase, generate_erase]
  split
  · exact ⟨rfl, rfl⟩
  · refine ⟨rfl, ?_⟩
    change texts (p.erase.check.errors.map _) = texts (p.check.errors.map _)
    rw [texts_reports, texts_reports, hfaults]

theorem resolve_erase :
    (resolve p.erase).2 = (resolve p).2 ∧ texts (resolve p.erase).1 = texts (resolve p).1 := by
  have herase := p.resolve_erase
  cases h : p.resolve with
  | error e =>
    rw [h] at herase
    rw [resolve_of_error h, resolve_of_error herase]
    exact ⟨rfl, rfl⟩
  | ok resolved =>
    rw [h] at herase
    rw [resolve_of_ok h, resolve_of_ok herase]
    exact check_erase resolved

/-- Programs that are the same without lines have the same code and the same diagnostics. -/
theorem resolve_of_erase_eq {p q : Program} (h : p.erase = q.erase) :
    (resolve p).2 = (resolve q).2 ∧ texts (resolve p).1 = texts (resolve q).1 := by
  obtain ⟨hcode, htexts⟩ := resolve_erase p
  obtain ⟨hcode', htexts'⟩ := resolve_erase q
  rw [h] at hcode htexts
  exact ⟨hcode.symm.trans hcode', htexts.symm.trans htexts'⟩

end Compile

/-- Sources whose tokens have the same classes and texts, in the same order, have the same code or
fail alike, and get diagnostics with the same texts. -/
theorem compile_ignores_layout {source source' : Bytes}
    (h : (Scan.tokens source).map (fun t => (t.symbol.kindName, t.symbol.text)) =
      (Scan.tokens source').map fun t => (t.symbol.kindName, t.symbol.text)) :
    (compile source).code = (compile source').code ∧
      (compile source).messages.map Message.text = (compile source').messages.map Message.text := by
  have hwhole : WholeText (Scan.tokens source) := Scan.symbols_ended source
  rw [compile, compile, Program.parse, Program.parse]
  rcases Program.ofTokens_of_symbols hwhole (Scan.symbols_of_words h) with
    ⟨p, q, hp, hq, hshape⟩ | ⟨e, e', he, he', htext⟩
  · rw [hp, hq]
    exact Compile.resolve_of_erase_eq (by rw [← p.erase_shape, hshape, q.erase_shape])
  · rw [he, he']
    exact ⟨rfl, congrArg (· :: []) htext⟩

/-- A program on one line. -/
def onOneLine : Bytes :=
  Bytes.ofString ("class A \x7b public static void main(String[] a) \x7b " ++
    "int n = 6*7; System.out.println(n-1); \x7d \x7d")

/-- The same program with comments, on many lines and without blanks that are not needed. -/
def onManyLines : Bytes :=
  Bytes.ofString ("/* the\nanswer */class A\x7b\n\npublic static void main (String[]a) " ++
    "// start\n\x7bint n=6 /**/ *\n7 ;\r\nSystem . out.println(n - 1)\t;\x7d\n\x7d//")

theorem onOneLine_ignores_layout :
    ((Scan.tokens onOneLine).map (fun t => (t.symbol.kindName, t.symbol.text)) =
      (Scan.tokens onManyLines).map fun t => (t.symbol.kindName, t.symbol.text)) ∧
    (compile onOneLine).code = (compile onManyLines).code ∧
      (compile onOneLine).messages.map Message.text =
        (compile onManyLines).messages.map Message.text := by
  have hwords : (Scan.tokens onOneLine).map (fun t => (t.symbol.kindName, t.symbol.text)) =
      (Scan.tokens onManyLines).map fun t => (t.symbol.kindName, t.symbol.text) := by decide +kernel
  exact ⟨hwords, compile_ignores_layout hwords⟩

end MiniJava
