import MiniJava.Proofs.Places.Compile
import MiniJava.Proofs.Syntax.Print
/-!
Compiling the source text of a program. What is parsed from the text is the program up to its lines,
and code does not hang on lines, so the text has the code of the program.
-/
namespace MiniJava

theorem Compile.code_of_parse {source : Bytes} {p : Program} (h : Program.parse source = .ok p) :
    (compile source).code = (resolve p).2 := by
  simp only [compile, h]

theorem Program.compile_print {p : Program} (hwritable : p.isWritable = true)
    (hnearest : p.elsesNearest = true) :
    (compile p.print).code = (Compile.resolve p.unbound).2 := by
  obtain ⟨last, htokens⟩ := Scan.tokens_spaced (Program.areSpelled hwritable)
  have hsymbols : (Scan.tokens p.print).map (·.symbol) = p.symbols ++ [Symbol.endOfText] := by
    rw [Program.print, htokens, List.map_append, List.map_map]
    simp [Function.comp_def]
  have helses : p.unbound.shape.elsesNearest = true := by
    rw [Program.elsesNearest_shape, Program.elsesNearest_unbound, hnearest]
  obtain ⟨q, hq, hshape⟩ :=
    Program.ofTokens_of_spells hsymbols (Grammar.spells_program hwritable) helses
  have herase : q.erase = p.unbound.erase := by rw [← q.erase_shape, hshape, Program.erase_shape]
  rw [Compile.code_of_parse hq]
  exact (Compile.resolve_of_erase_eq herase).1

end MiniJava
