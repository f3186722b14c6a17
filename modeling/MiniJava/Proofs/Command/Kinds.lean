import MiniJava.Proofs.Formats
import MiniJava.Proofs.Syntax.Declarations
/-!
The first bytes of a file tell whether it holds a source, an object file or a listing: a source
begins with a class, an object file with the number of an operation and a listing with the address
0.
-/
namespace MiniJava

open Scan

/-- A program is empty or begins with a class. -/
theorem Grammar.SpellsProgram.head {ss : List Symbol} {p : Program} (h : SpellsProgram ss p) :
    ss = [] ∨ ∃ rest, ss = .keyword .classWord :: rest := by
  cases h with
  | mk hclasses =>
    cases hclasses with
    | nil => exact .inl rfl
    | cons hclass _ =>
      cases hclass
      exact .inr ⟨_, rfl⟩

section Source

variable {source : Bytes} {code : Code} {m : Nat} {c : Char} {rest : List Char}

theorem Program.head_of_parse {p : Program} (h : parse source = .ok p) :
    (tokens source).head?.map (·.symbol) = some .endOfText ∨
      (tokens source).head?.map (·.symbol) = some (.keyword .classWord) := by
  obtain ⟨body, hbody, hnot⟩ := symbols_ended source
  obtain ⟨hspells, -⟩ := spells_of_ofTokens hbody hnot h
  rw [← List.head?_map, hbody]
  rcases hspells.head with rfl | ⟨rest, rfl⟩
  · exact .inl rfl
  · exact .inr rfl

theorem lexeme_of_compile (h : (compile source).code = .ok code)
    (hgap : skipGap .blank 1 source.toChars = .before m (c :: rest)) :
    (lexeme c rest).1 = .endOfText ∨ (lexeme c rest).1 = .keyword .classWord := by
  obtain ⟨p, entry, hbuilt⟩ := Program.exists_isBuilt h
  obtain ⟨q, hparse, -⟩ := hbuilt.resolved
  have hhead := Program.head_of_parse hparse
  rw [tokens_eq, tokensFrom_of_symbol hgap] at hhead
  simpa using hhead

theorem exists_head_of_compile (h : (compile source).code = .ok code) :
    ∃ i is op, code.toList = i :: is ∧ i.op = Op.number op := by
  obtain ⟨p, entry, hbuilt⟩ := Program.exists_isBuilt h
  obtain ⟨d, hd, hlink⟩ := hbuilt.exists_draft
  obtain ⟨a, -, htake⟩ := Program.take_code hd hlink
  cases hcode : code.toList with
  | nil =>
    rw [hcode] at htake
    simp at htake
  | cons i is =>
    rw [hcode, List.take_succ_cons] at htake
    cases hstatics : p.staticCount with
    | zero =>
      rw [hstatics] at htake
      exact ⟨i, is, .loadl, rfl, congrArg Instr.op (List.cons.inj htake).1⟩
    | succ n =>
      rw [hstatics, List.replicate_succ] at htake
      exact ⟨i, is, .push, rfl, congrArg Instr.op (List.cons.inj htake).1⟩

theorem write_eq_cons (h : (compile source).code = .ok code) :
    ∃ rest, Object.write code.toList = 0 :: rest := by
  obtain ⟨i, is, op, hcode, hop⟩ := exists_head_of_compile h
  have hbytes : ∃ d, Object.wordBytes op.number = [0, 0, 0, d] := by cases op <;> exact ⟨_, rfl⟩
  obtain ⟨d, hd⟩ := hbytes
  rw [hcode, Object.write, List.flatMap_cons, Object.instrBytes, hop, hd]
  exact ⟨_, rfl⟩

theorem print_eq_cons (h : (compile source).code = .ok code) :
    ∃ rest, Listing.print code = 32 :: 32 :: 32 :: 48 :: rest := by
  obtain ⟨i, is, op, hcode, -⟩ := exists_head_of_compile h
  have hcolumn : (Listing.addressColumn 0).toList = [' ', ' ', ' ', '0'] := by decide +kernel
  rw [Listing.print, hcode, Listing.linesFrom, Listing.line, Bytes.ofString]
  simp only [String.toList_append, hcolumn]
  exact ⟨_, rfl⟩

theorem write_ne_source
    (h : (compile source).code = .ok code) : Object.write code.toList ≠ source := by
  rintro rfl
  obtain ⟨rest, hrest⟩ := write_eq_cons h
  rw [hrest] at h
  have hgap : skipGap .blank 1 (Bytes.toChars (0 :: rest)) =
      .before 1 ('\x00' :: Bytes.toChars rest) := rfl
  rcases lexeme_of_compile h hgap with hend | hclass
  · cases hend
  · cases hclass

theorem print_ne_source (h : (compile source).code = .ok code) : Listing.print code ≠ source := by
  rintro rfl
  obtain ⟨rest, hrest⟩ := print_eq_cons h
  rw [hrest] at h
  have hgap : skipGap .blank 1 (Bytes.toChars (32 :: 32 :: 32 :: 48 :: rest)) =
      .before 1 ('0' :: Bytes.toChars rest) := rfl
  rcases lexeme_of_compile h hgap with hend | hclass
  · cases hend
  · cases hclass

theorem read_print_ne (h : (compile source).code = .ok code) :
    Object.read (Listing.print code) ≠ .ok code.toList := by
  intro hread
  obtain ⟨written, hwritten⟩ := write_eq_cons h
  obtain ⟨printed, hprinted⟩ := print_eq_cons h
  rcases Object.readFrom_cases 0 (Listing.print code) with ⟨-, is, his, hwrite⟩ | ⟨-, herror⟩
  · cases his.symm.trans hread
    rw [hwritten, hprinted] at hwrite
    cases hwrite
  · cases herror.symm.trans hread

end Source

end MiniJava
