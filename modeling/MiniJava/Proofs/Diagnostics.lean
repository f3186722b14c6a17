import MiniJava.Proofs.Scope.Journal
import MiniJava.Proofs.Sequence
import MiniJava.Proofs.Syntax.Lookahead
import MiniJava.Proofs.Token.Calls
/-!
The reports of reading a program and of resolving its names. The scanner and the reader report to
one place, and exactly one of them speaks about the token where reading fails; resolving names
reports the one name that it refuses where it refuses it.
-/
namespace MiniJava

open Scan (Scanner)

namespace Cursor

/-- What the scanner has reported when reading has come to this place: it has been called for every
token up to the one at hand. -/
def scanned (source : Bytes) (c : Cursor) : List Message :=
  (Scanner.after ((Scan.tokens source).length - c.upcoming.length) (.ofSource source)).log

/-- What the reader reports on a fault at this place: nothing if the scanner has reported the
token. -/
def ownReport (c : Cursor) (fault : SyntaxFault) : List Message :=
  if c.current.symbol.isError then [] else [.about c.current.span (fault.message c.current.symbol)]

end Cursor

/-- What is reported while a source is read as a program, by the scanner and then by the reader. -/
def Program.readingReports (source : Bytes) : List Message :=
  match Parser.program (Cursor.start (Scan.tokens source)) with
  | .ok _ c => c.scanned source
  | .error fault c => c.scanned source ++ c.ownReport fault

/-- What stands in the journal when the names of a program have been resolved or one has been
refused. -/
def Program.journal (p : Program) : Resolve.Journal :=
  match p.identify {} with
  | .ok _ journal => journal
  | .error _ journal => journal

section Reading

variable {source : Bytes}

theorem Scan.messages_eq_nil {ts : List Token}
    (h : ∀ t ∈ ts, t.symbol.isError = false) : messages ts = [] := by
  induction ts with
  | nil => rfl
  | cons t ts ih =>
    obtain ⟨ht, hts⟩ := List.forall_mem_cons.mp h
    have hnone : t.message? = none := by
      rw [← Option.isNone_iff_eq_none, ← Option.isSome_eq_false_iff, Token.message?_isSome, ht]
    rw [Scanner.messages_cons, hnone, ih hts]
    rfl

theorem Cursor.tokens_startOf (source : Bytes) :
    (start (Scan.tokens source)).tokens = Scan.tokens source := by
  obtain ⟨ts, last, htokens, -⟩ := Scan.tokens_ended source
  apply Cursor.tokens_start
  rw [htokens]
  simp

/-- If no error has been passed, the scanner can have reported the token at hand only. -/
theorem Cursor.scanned_of_leads {c : Cursor} (h : (start (Scan.tokens source)).Leads c) :
    c.scanned source = c.current.message?.toList := by
  obtain ⟨between, htokens, hbetween⟩ := h
  rw [tokens_startOf] at htokens
  have hcalls : (Scan.tokens source).length - c.upcoming.length =
      (between ++ [c.current]).length := by
    rw [htokens, tokens]
    simp
    omega
  have hfirst : (Scan.tokens source).take (between ++ [c.current]).length =
      between ++ [c.current] := by
    have hsplit : Scan.tokens source = between ++ [c.current] ++ c.upcoming := by
      rw [htokens, tokens, List.append_assoc]
      rfl
    rw [hsplit, List.take_left]
  rw [scanned, Scanner.log_after, hcalls, hfirst, Scanner.messages_append,
    Scan.messages_eq_nil hbetween, Scanner.messages_cons]
  exact List.append_nil _

theorem Cursor.toList_append_ownReport (c : Cursor) (fault : SyntaxFault) :
    c.current.message?.toList ++ c.ownReport fault = [c.faultMessage fault] := by
  have hsome := Token.message?_isSome c.current
  rw [ownReport, faultMessage, ← hsome]
  cases c.current.message? <;> rfl

theorem Cursor.upcoming_of_ended {c : Cursor} (hleads : (start (Scan.tokens source)).Leads c)
    (hc : c.current.symbol = .endOfText) : c.upcoming = [] := by
  obtain ⟨between, hbetween, -⟩ := hleads
  obtain ⟨ts, last, htokens, -, hts⟩ := Scan.tokens_ended source
  rw [tokens_startOf, htokens, tokens] at hbetween
  cases hrest : c.upcoming with
  | nil => rfl
  | cons t us =>
    rw [hrest] at hbetween
    have hinit := congrArg List.dropLast hbetween
    rw [List.dropLast_concat, List.dropLast_append_of_ne_nil (List.cons_ne_nil _ _),
      List.dropLast_cons_cons] at hinit
    have hmem : c.current ∈ ts := by
      rw [hinit]
      simp
    exact absurd hc (hts _ hmem)

theorem Program.readingReports_of_error {e : SyntaxError} (h : parse source = .error e) :
    readingReports source = [e.message] ∧
      e.place.scanned source = if e.place.current.symbol.isError then [e.message] else [] := by
  have hleads := Parser.leads_program (Cursor.start (Scan.tokens source))
  rw [parse, ofTokens] at h
  rw [readingReports]
  generalize Parser.program (Cursor.start (Scan.tokens source)) = r at h hleads
  cases r with
  | ok p c => cases h
  | error fault c =>
    cases h
    have hscanned : c.scanned source = c.current.message?.toList := Cursor.scanned_of_leads hleads
    dsimp only
    rw [hscanned]
    refine ⟨Cursor.toList_append_ownReport c fault, ?_⟩
    rw [← Token.message?_isSome, SyntaxError.message, Cursor.faultMessage]
    cases c.current.message? <;> rfl

theorem Program.readingReports_of_ok {p : Program}
    (h : parse source = .ok p) : readingReports source = [] := by
  have hleads := Parser.leads_program (Cursor.start (Scan.tokens source))
  rw [parse, ofTokens] at h
  rw [readingReports]
  cases hr : Parser.program (Cursor.start (Scan.tokens source)) with
  | error fault c =>
    rw [hr] at h
    cases h
  | ok q c =>
    rw [hr] at hleads
    obtain ⟨cs, d, hclasses, hsymbol, rfl⟩ := Parser.program_eq_ok hr
    have hd : (Cursor.start (Scan.tokens source)).Leads d := by
      have hclassesLead := Parser.leads_classes (Cursor.start (Scan.tokens source))
      rwa [hclasses] at hclassesLead
    have hsame : d.advance.current = d.current := by
      rw [Cursor.advance, Cursor.upcoming_of_ended hd hsymbol]
    have hscanned : d.advance.scanned source = d.advance.current.message?.toList :=
      Cursor.scanned_of_leads hleads
    rw [hsame] at hscanned
    dsimp only
    rw [hscanned, Token.message?, hsymbol]
    rfl

end Reading

section Naming

variable {p : Program}

theorem Program.journal_of_error {e : NamingError} (h : p.resolve = .error e) :
    p.journal = ⟨[e.message], e.duplicate.toList⟩ := by
  rw [journal, identify_of_error h]

theorem Program.journal_of_ok {q : Program} (h : p.resolve = .ok q) : p.journal = {} := by
  rw [journal, identify_of_ok h]

theorem Program.flagged_of_error {e : NamingError} (h : p.resolve = .error e) :
    if e.fault.isDuplicate then ∃ site, p.journal.flagged = [site] ∧ p.duplicateAt? site = some e
    else p.journal.flagged = [] := by
  rw [journal_of_error h]
  rcases explains_of_resolve h with hplain | ⟨site, hsite⟩
  · rw [hplain.fault, hplain.duplicate]
    rfl
  · obtain ⟨hmark, hfault⟩ := duplicateAt?_marks hsite
    rw [hfault, hmark]
    exact ⟨site, rfl, hsite⟩

end Naming

/-- One report for each pass of the front end that fails. Reading a source fails exactly if one
message is reported, by the scanner if the token at fault is an error and by the reader otherwise,
and gives a program exactly if there is none. Resolving the names of the program gives what it gives
without a journal, and fails exactly if one more message is reported; a declaration is flagged only
if the message refuses it as the second of its name, and then it is the one of the program that the
message is about. No predefined declaration is refused. -/
theorem front_end_reports (source : Bytes) :
    ((∃ e, Program.parse source = .error e) ↔ (Program.readingReports source).length = 1) ∧
    ((∃ p, Program.parse source = .ok p) ↔ Program.readingReports source = []) ∧
    (∀ e, Program.parse source = .error e →
      Program.readingReports source = [e.message] ∧ (compile source).messages = [e.message] ∧
      e.place.scanned source = if e.place.current.symbol.isError then [e.message] else []) ∧
    (∀ p, Program.parse source = .ok p →
      ((∃ e, p.resolve = .error e) ↔ p.journal.reports.length = 1) ∧
      ((∃ q, p.resolve = .ok q) ↔ p.journal.reports = []) ∧
      (∀ e, p.resolve = .error e → p.identify {} = .error e p.journal ∧
        p.journal.reports = [e.message] ∧ (compile source).messages = [e.message] ∧
        if e.fault.isDuplicate then
          ∃ site, p.journal.flagged = [site] ∧ p.duplicateAt? site = some e
        else p.journal.flagged = []) ∧
      ∀ q, p.resolve = .ok q → p.identify {} = .ok q p.journal ∧ p.journal.flagged = []) ∧
    Resolve.enterClasses 0 Library.classes Scopes.new = .ok Resolve.predefined := by
  refine ⟨?_, ?_, ?_, ?_, Resolve.enterClasses_library⟩
  · cases hparse : Program.parse source with
    | ok p => simp [Program.readingReports_of_ok hparse]
    | error e => simp [(Program.readingReports_of_error hparse).1]
  · cases hparse : Program.parse source with
    | ok p => simp [Program.readingReports_of_ok hparse]
    | error e => simp [(Program.readingReports_of_error hparse).1]
  · intro e hparse
    obtain ⟨hreports, hscanned⟩ := Program.readingReports_of_error hparse
    refine ⟨hreports, ?_, hscanned⟩
    rw [compile, hparse]
    rfl
  · intro p hparse
    refine ⟨?_, ?_, ?_, ?_⟩
    · cases hresolve : p.resolve with
      | ok q => simp [Program.journal_of_ok hresolve]
      | error e => simp [Program.journal_of_error hresolve]
    · cases hresolve : p.resolve with
      | ok q => simp [Program.journal_of_ok hresolve]
      | error e => simp [Program.journal_of_error hresolve]
    · intro e hresolve
      have hjournal := Program.journal_of_error hresolve
      refine ⟨?_, by rw [hjournal], ?_, Program.flagged_of_error hresolve⟩
      · rw [hjournal, Program.identify_of_error hresolve]
      · rw [compile, hparse]
        dsimp only
        rw [Compile.resolve_of_error hresolve]
        rfl
    · intro q hresolve
      rw [Program.journal_of_ok hresolve]
      exact ⟨Program.identify_of_ok hresolve, rfl⟩

end MiniJava
