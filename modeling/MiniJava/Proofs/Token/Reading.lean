import MiniJava.Proofs.Token.Split
/-!
The scanner reads the whole text. What is left of its line and what it has not loaded make up the
text to come, no symbol goes over the end of a line, and the number of the last line loaded is the
number of lines of the text.
-/
namespace MiniJava.Scan

/-- What is left of a line that is loaded, where `unread` is not: the line end comes last, and only
the end of the text can stand in its place. -/
inductive OnLine (unread : List Char) : List Char → Prop
  | lineEnd : OnLine unread ['\n']
  | textEnd : unread = [] → OnLine unread []
  | cons {c : Char} {cs : List Char} : c ≠ '\n' → OnLine unread cs → OnLine unread (c :: cs)

section OnLine

variable {c : Char} {cs unread : List Char}

theorem OnLine.tail (h : OnLine unread (c :: cs)) (hc : c ≠ '\n') : OnLine unread cs := by
  cases h with
  | lineEnd => exact absurd rfl hc
  | cons _ htail => exact htail

theorem OnLine.eq_nil (h : OnLine unread ('\n' :: cs)) : cs = [] := by
  cases h with
  | lineEnd => rfl
  | cons hc => exact absurd rfl hc

theorem OnLine.unread_eq_nil (h : OnLine unread []) : unread = [] := by
  cases h with
  | textEnd hnone => exact hnone

theorem onLine_cutLine (cs : List Char) : OnLine (cutLine cs).2 (cutLine cs).1 := by
  fun_induction cutLine cs with
  | case1 => exact .textEnd rfl
  | case2 => exact .lineEnd
  | case3 c cs hc ih => exact .cons hc ih

/-- A character of the line stands before a character of the line or before the end of the text. -/
theorem OnLine.breaks {p : Char → Bool} (h : OnLine unread cs) (hbreaks : Breaks p cs) :
    Breaks p (cs ++ unread) := by
  cases cs with
  | nil =>
    rw [h.unread_eq_nil]
    exact hbreaks
  | cons c cs => exact hbreaks

/-- A run of characters stops before the end of the line. -/
theorem OnLine.run {p : Char → Bool} (h : OnLine unread cs) (hp : p '\n' = false) :
    (cs ++ unread).takeWhile p = cs.takeWhile p ∧
      (cs ++ unread).dropWhile p = cs.dropWhile p ++ unread ∧
      OnLine unread (cs.dropWhile p) := by
  induction h with
  | lineEnd =>
    have hstop : ¬ p '\n' = true := by simp [hp]
    simp only [List.singleton_append, List.takeWhile_cons_of_neg hstop,
      List.dropWhile_cons_of_neg hstop, true_and]
    exact .lineEnd
  | textEnd hnone =>
    subst hnone
    exact ⟨rfl, rfl, .textEnd rfl⟩
  | @cons c cs hc htail ih =>
    by_cases hpc : p c = true
    · simp only [List.cons_append, List.takeWhile_cons_of_pos hpc, List.dropWhile_cons_of_pos hpc,
        ih.1]
      exact ⟨trivial, ih.2⟩
    · simp only [List.cons_append, List.takeWhile_cons_of_neg hpc, List.dropWhile_cons_of_neg hpc,
        true_and]
      exact .cons hc htail

theorem OnLine.comment (h : OnLine unread cs) (n : Nat) :
    skipGap .lineComment n (cs ++ unread) = skipGap .blank (n + 1) unread ∨
      unread = [] ∧ skipGap .lineComment n (cs ++ unread) = .before n [] := by
  induction h with
  | lineEnd => exact .inl rfl
  | textEnd hnone =>
    subst hnone
    exact .inr ⟨rfl, rfl⟩
  | @cons c cs hc _ ih =>
    rw [List.cons_append, skipGap, if_neg hc]
    exact ih

/-- The symbol is the one that the line gives, and it leaves the line end in place. -/
def KeepsLine (unread : List Char) (found whole : Symbol × List Char) : Prop :=
  whole = (found.1, found.2 ++ unread) ∧ OnLine unread found.2

theorem OnLine.oneOrTwo {second : Char} (h : OnLine unread cs) (hsecond : second ≠ '\n')
    (single double : Symbol) :
    KeepsLine unread (oneOrTwo second single double cs)
      (oneOrTwo second single double (cs ++ unread)) := by
  cases cs with
  | nil =>
    have hnone := h.unread_eq_nil
    subst hnone
    exact ⟨rfl, h⟩
  | cons c cs =>
    rw [List.cons_append, Scan.oneOrTwo, Scan.oneOrTwo]
    split
    · rename_i hc
      exact ⟨rfl, h.tail (hc ▸ hsecond)⟩
    · exact ⟨rfl, h⟩

theorem OnLine.longestRun (h : OnLine unread cs) (c : Char) :
    KeepsLine unread (longestRun c cs) (longestRun c (cs ++ unread)) := by
  rw [Scan.longestRun, Scan.longestRun]
  split
  · obtain ⟨htake, hdrop, hline⟩ := h.run (p := Decimal.isDigit) (by decide)
    rw [htake, hdrop]
    exact ⟨rfl, hline⟩
  · split
    · obtain ⟨htake, hdrop, hline⟩ := h.run (p := isWordChar) (by decide)
      rw [htake, hdrop]
      exact ⟨rfl, hline⟩
    · exact ⟨rfl, h⟩

/-- No symbol goes over the end of the line. -/
theorem OnLine.lexeme (h : OnLine unread cs) (c : Char) :
    KeepsLine unread (lexeme c cs) (lexeme c (cs ++ unread)) := by
  fun_cases Scan.lexeme c cs
  case case14 | case15 | case16 | case17 | case18 | case19 => exact h.oneOrTwo (by decide) _ _
  case case20 =>
    have hmark : c ∉ markStarts := by
      simp only [markStarts, List.mem_cons, List.not_mem_nil, or_false, not_or]
      repeat' constructor
      all_goals assumption
    rw [lexeme_eq_longestRun hmark]
    exact h.longestRun c
  all_goals exact ⟨rfl, h⟩

end OnLine

namespace Scanner

/-- The number of the line with which the text ends. -/
def last (s : Scanner) : Nat := s.number + lineCount s.unread

/-- The text to come is `cs`, and it starts on line `n`. -/
structure Reads (s : Scanner) (n : Nat) (cs : List Char) : Prop where
  text : s.line ++ s.unread = cs
  place : s.line = [] ∧ n = s.number + 1 ∨ OnLine s.unread s.line ∧ n = s.number
  ended : s.ended = true → cs = []

variable {s t : Scanner} {n : Nat} {c : Char} {cs ds : List Char}

theorem reads_ofSource (source : Bytes) : (ofSource source).Reads 1 source.toChars :=
  ⟨rfl, .inl ⟨rfl, rfl⟩, nofun⟩

theorem Reads.onLine (h : s.Reads n cs) (hline : s.line = c :: ds) :
    OnLine s.unread (c :: ds) ∧ n = s.number := by
  rcases h.place with ⟨hnone, -⟩ | hplace
  · rw [hline] at hnone
    cases hnone
  · rwa [hline] at hplace

/-- Loading a line changes nothing in the text to come. -/
theorem Reads.nextLine (h : s.Reads n cs) (hline : s.line = []) : s.nextLine.Reads n cs := by
  obtain ⟨htext, hplace, hended⟩ := h
  rw [hline, List.nil_append] at htext
  rw [hline] at hplace
  unfold Scanner.nextLine
  split
  · rename_i hnone
    refine ⟨?_, ?_, fun _ => htext.symm.trans hnone⟩
    · exact htext
    · exact hplace
  · rename_i hsome
    have hnumber : n = s.number + 1 := by
      rcases hplace with ⟨-, hn⟩ | ⟨honLine, -⟩
      · exact hn
      · exact absurd honLine.unread_eq_nil hsome
    exact ⟨(cutLine_append _).trans htext, .inr ⟨onLine_cutLine _, hnumber⟩, hended⟩

/-- A character of the line is the first one of the text to come. -/
theorem Reads.tail (h : s.Reads n cs) (hline : s.line = c :: ds) :
    { s with line := ds }.Reads (lineAfter n c) (ds ++ s.unread) := by
  obtain ⟨honLine, hn⟩ := h.onLine hline
  have htext := h.text
  rw [hline] at htext
  refine ⟨rfl, ?_, fun hended => ?_⟩
  · rw [lineAfter]
    split
    · rename_i hc
      subst hc
      exact .inl ⟨honLine.eq_nil, congrArg (· + 1) hn⟩
    · rename_i hc
      exact .inr ⟨honLine.tail hc, hn⟩
  · have hnone := h.ended hended
    rw [hnone] at htext
    cases htext

theorem lineCount_cons (c : Char) (h : cs ≠ []) :
    lineCount (c :: cs) = lineCount cs + [c].count '\n' := by
  have hlast := List.getLast?_eq_some_getLast h
  have hcons : (c :: cs).getLast? = some (cs.getLast h) := by rw [List.getLast?_cons, hlast]; rfl
  rw [lineCount, lineCount, hcons, hlast, ← List.singleton_append, List.count_append]
  dsimp only
  omega

theorem lineCount_cutLine (h : cs ≠ []) : lineCount cs = lineCount (cutLine cs).2 + 1 := by
  fun_induction cutLine cs with
  | case1 => exact absurd rfl h
  | case2 cs =>
    by_cases hcs : cs = []
    · subst hcs
      rfl
    · exact lineCount_cons _ hcs
  | case3 c cs hc ih =>
    by_cases hcs : cs = []
    · subst hcs
      simp [lineCount, cutLine, hc]
    · rw [lineCount_cons c hcs, ih hcs, List.count_singleton, if_neg (by simpa using hc)]

theorem last_nextLine (s : Scanner) : s.nextLine.last = s.last := by
  unfold Scanner.nextLine
  split
  · rfl
  · rename_i hsome
    simp only [last, lineCount_cutLine hsome]
    omega

/-- Where the end of a block comment in `cs` is looked for, the text behind it comes next. -/
inductive Closes (last n : Nat) (cs : List Char) : Bool × Scanner → Prop
  | closed {t : Scanner} {m : Nat} {ds : List Char} :
      (∀ opened, skipGap (.blockComment opened) n cs = skipGap .blank m ds) → t.Reads m ds →
        t.last = last →
      Closes last n cs (true, t)
  | unclosed {t : Scanner} {m : Nat} :
      (∀ opened, skipGap (.blockComment opened) n cs = .unclosed opened) → t.Reads m [] →
        t.last = last →
      Closes last n cs (false, t)

theorem Closes.congr {last n m : Nat} {cs ds : List Char} {r : Bool × Scanner}
    (h : Closes last m ds r)
    (hskip : ∀ opened, skipGap (.blockComment opened) n cs = skipGap (.blockComment opened) m ds) :
    Closes last n cs r := by
  cases h with
  | closed hrest => exact .closed (fun opened => (hskip opened).trans (hrest opened)) ‹_› ‹_›
  | unclosed hrest => exact .unclosed (fun opened => (hskip opened).trans (hrest opened)) ‹_› ‹_›

theorem Reads.text_cons (h : s.Reads n cs)
    (hline : s.line = c :: ds) : cs = c :: (ds ++ s.unread) := by
  rw [← h.text, hline]
  rfl

/-- A character that is not followed by another one on its line is not followed by it in the
text. -/
theorem Reads.not_followed (h : s.Reads n cs) (hline : s.line = c :: ds) (hc : c ≠ '\n') {d : Char}
    (hd : ∀ es, ds ≠ d :: es) (es : List Char) : ds ++ s.unread ≠ d :: es := by
  have htail := (h.onLine hline).1.tail hc
  cases ds with
  | nil =>
    rw [htail.unread_eq_nil]
    exact nofun
  | cons e ds =>
    intro heq
    cases heq
    exact hd ds rfl

theorem Reads.closes (h : s.Reads n cs) : Closes s.last n cs s.closeComment := by
  fun_induction closeComment s generalizing n cs with
  | case1 s ds hline =>
    rw [h.text_cons hline]
    exact .closed (fun _ => rfl) ((h.tail hline).tail rfl) rfl
  | case2 s c ds hnot hline ih =>
    refine (ih (h.tail hline)).congr fun opened => ?_
    rw [h.text_cons hline]
    apply skipGap_inside
    rintro rfl
    exact h.not_followed hline (by decide) fun es hes => hnot es rfl hes
  | case3 s hline hended =>
    have hnext := h.nextLine hline
    have hnone := hnext.ended hended
    subst hnone
    exact .unclosed (fun _ => rfl) hnext (last_nextLine s)
  | case4 s hline _ ih => exact last_nextLine s ▸ ih (h.nextLine hline)

/-- How skipping ends where the text ends on line `last`. -/
inductive Stops (last : Nat) : GapEnd → Option Nat × Scanner → Prop
  | symbol {t : Scanner} {m : Nat} {c : Char} {cs : List Char} :
      t.line = c :: cs → c ≠ '\n' → t.Reads m (c :: (cs ++ t.unread)) → t.last = last →
      Stops last (.before m (c :: (cs ++ t.unread))) (none, t)
  | nothing {t : Scanner} {m : Nat} : t.Reads m [] → t.last = last →
      Stops last (.before m []) (none, t)
  | unclosed {t : Scanner} {m opened : Nat} : t.Reads m [] → t.last = last →
      Stops last (.unclosed opened) (some opened, t)

theorem Reads.stops (h : s.Reads n cs) : Stops s.last (skipGap .blank n cs) s.skip := by
  fun_induction skip s generalizing n cs with
  | case1 s hended =>
    have hnone := h.ended hended
    subst hnone
    exact .nothing h rfl
  | case2 s _ hline ih => exact last_nextLine s ▸ ih (h.nextLine hline)
  | case3 s hended ds hline ih =>
    obtain ⟨honLine, hn⟩ := h.onLine hline
    have hcomment := ((honLine.tail (by decide)).tail (by decide)).comment n
    rw [h.text_cons hline]
    rcases hcomment with hskip | ⟨hnone, hskip⟩
    · have hnext : { s with line := [] }.Reads (n + 1) s.unread :=
        ⟨rfl, .inl ⟨rfl, congrArg (· + 1) hn⟩, fun h => absurd h hended⟩
      rw [List.cons_append, skipGap, hskip]
      exact ih hnext
    · have hnext : { s with line := [] }.Reads n [] :=
        ⟨hnone, .inr ⟨.textEnd hnone, hn⟩, fun _ => rfl⟩
      rw [List.cons_append, skipGap, hskip]
      exact ih hnext
  | case4 s _ ds hline t hclose ih =>
    have hcloses := ((h.tail hline).tail rfl).closes
    rw [hclose] at hcloses
    rw [h.text_cons hline, List.cons_append, skipGap]
    cases hcloses with
    | closed hskip hreads hlast =>
      have hstops := ih hreads
      rw [hlast] at hstops
      exact hskip n ▸ hstops
  | case5 s _ ds hline t hclose =>
    have hcloses := ((h.tail hline).tail rfl).closes
    rw [hclose] at hcloses
    rw [h.text_cons hline, List.cons_append, skipGap, ← (h.onLine hline).2]
    cases hcloses with
    | unclosed hskip hreads hlast =>
      rw [show skipGap (.blockComment n) n (ds ++ s.unread) = .unclosed n from hskip n]
      exact .unclosed hreads hlast
  | case6 s _ c ds hslash hstar hline hblank ih =>
    rw [h.text_cons hline, skipGap_blank hblank]
    exact ih (h.tail hline)
  | case7 s _ c ds hslash hstar hline hblank =>
    have hcomment : c = '/' → Breaks opensComment (ds ++ s.unread) := by
      refine Classical.byContradiction fun hnot => ?_
      obtain ⟨rfl, es, hes | hes⟩ := exists_comment hnot
      · exact h.not_followed hline (by decide) (fun es => hslash es rfl) es hes
      · exact h.not_followed hline (by decide) (fun es => hstar es rfl) es hes
    have hnewline : c ≠ '\n' := by
      rintro rfl
      exact hblank (by decide)
    have htext := h.text_cons hline
    subst htext
    rw [skipGap_symbol (Bool.eq_false_iff.mpr hblank) hcomment]
    exact .symbol hline hnewline h rfl

theorem Reads.last_eq (h : s.Reads n []) : s.line = [] ∧ s.last = s.number := by
  obtain ⟨hline, hunread⟩ := List.append_eq_nil_iff.mp h.text
  rw [last, hunread]
  exact ⟨hline, rfl⟩

/-- A call finds the first of the tokens that the text gives. -/
theorem Reads.call (h : s.Reads n cs) :
    s.call.1 = ⟨.endOfText, .line s.last⟩ ∧ tokensFrom s.last n cs = [s.call.1] ∨
      s.call.1.symbol ≠ .endOfText ∧ ∃ m ds, s.call.2.Reads m ds ∧ s.call.2.last = s.last ∧
        tokensFrom s.last n cs = s.call.1 :: tokensFrom s.last m ds := by
  have hstops := h.stops
  unfold Scanner.call find
  generalize hgap : skipGap .blank n cs = e at hstops
  generalize s.skip = r at hstops ⊢
  cases hstops with
  | @symbol t m c ds hline hnewline hreads hlast =>
    obtain ⟨hfound, hm⟩ := hreads.onLine hline
    obtain ⟨hlexeme, honLine⟩ := (hfound.tail hnewline).lexeme c
    right
    simp only [hline]
    refine ⟨lexeme_ne_endOfText c ds, m, (lexeme c ds).2 ++ t.unread, ?_, hlast, ?_⟩
    · exact ⟨rfl, .inr ⟨honLine, hm⟩,
        fun hended => absurd (hreads.ended hended) (List.cons_ne_nil _ _)⟩
    · rw [tokensFrom_of_symbol hgap, hlexeme, hm]
  | nothing hreads hlast =>
    left
    obtain ⟨hline, hnumber⟩ := hreads.last_eq
    simp only [hline]
    rw [← hlast, hnumber]
    exact ⟨rfl, tokensFrom_of_nothing hgap⟩
  | @unclosed t m opened hreads hlast =>
    right
    refine ⟨Symbol.noConfusion, m, [], ?_, hlast, ?_⟩
    · exact ⟨hreads.text, hreads.place, hreads.ended⟩
    · rw [tokensFrom_of_unclosed hgap, tokensFrom_of_nothing rfl]

theorem Reads.tokens_eq (h : s.Reads n cs) : s.tokens = tokensFrom s.last n cs := by
  fun_induction tokens s generalizing n cs with
  | case1 s hend =>
    rcases h.call with ⟨-, heq⟩ | ⟨hnot, -⟩
    · exact heq.symm
    · exact absurd hend hnot
  | case2 s hend ih =>
    rcases h.call with ⟨htoken, -⟩ | ⟨-, m, ds, hreads, hlast, heq⟩
    · rw [htoken] at hend
      exact absurd rfl hend
    · rw [heq, ih hreads, hlast]

end Scanner

/-- The scanner gives the tokens of the whole text. -/
theorem tokens_eq (source : Bytes) :
    tokens source = tokensFrom (lineCount source.toChars) 1 source.toChars := by
  have heq := (Scanner.reads_ofSource source).tokens_eq
  rwa [Scanner.last, Scanner.ofSource, Nat.zero_add] at heq

theorem Splits.tokens_eq {source : Bytes} {ts : List Token} (h : Splits [] source.toChars ts) :
    tokens source = ts ++ [⟨.endOfText, .line (lineCount source.toChars)⟩] :=
  (Scan.tokens_eq source).trans h.tokensFrom

section Source

variable (source : Bytes)

/-- The end of the text is the last token of a source and no other. -/
theorem tokens_ended :
    ∃ ts last, tokens source = ts ++ [last] ∧ last.symbol = .endOfText ∧ ∀ t ∈ ts,
      t.symbol ≠ .endOfText := by
  obtain ⟨ts, hsplits⟩ := exists_splits [] source.toChars
  exact ⟨ts, _, hsplits.tokens_eq, rfl, hsplits.ne_endOfText⟩

theorem symbols_ended :
    ∃ body, (tokens source).map (·.symbol) = body ++ [Symbol.endOfText] ∧ .endOfText ∉ body := by
  obtain ⟨ts, last, htokens, hlast, hts⟩ := tokens_ended source
  refine ⟨ts.map (·.symbol), ?_, fun hmem => ?_⟩
  · rw [htokens, List.map_append, List.map_singleton, hlast]
  · obtain ⟨t, ht, heq⟩ := List.mem_map.mp hmem
    exact hts t ht heq

/-- The tokens of a source stand on its lines in order, the end of the text on the last line. -/
theorem tokens_sorted : (tokens source).Pairwise fun t u => t.span.first ≤ u.span.first := by
  obtain ⟨ts, hsplits⟩ := exists_splits [] source.toChars
  obtain ⟨hlines, hsorted⟩ := hsplits.lines
  rw [hsplits.tokens_eq]
  refine List.pairwise_append.mpr ⟨hsorted, List.pairwise_singleton _ _, fun t ht u hu => ?_⟩
  obtain rfl := List.mem_singleton.mp hu
  obtain ⟨k, hk, -, hle⟩ := hlines t ht
  rw [hk]
  exact Int.ofNat_le.mpr hle

end Source

theorem symbol_of_mem_tokensFrom {last n : Nat} {cs : List Char} {t : Token}
    (ht : t ∈ tokensFrom last n cs) :
    t.symbol = .endOfText ∨ t.symbol = .error .unclosedComment ∨ ∃ c ds,
      t.symbol = (lexeme c ds).1 := by
  fun_induction tokensFrom last n cs with
  | case1 =>
    simp only [List.mem_cons, List.not_mem_nil, or_false] at ht
    rcases ht with rfl | rfl
    · exact .inr (.inl rfl)
    · exact .inl rfl
  | case2 =>
    cases List.mem_singleton.mp ht
    exact .inl rfl
  | case3 n cs m c rest hgap ih =>
    rcases List.mem_cons.mp ht with rfl | ht
    · exact .inr (.inr ⟨c, rest, rfl⟩)
    · exact ih ht

theorem symbol_of_mem_tokens {source : Bytes} {t : Token} (ht : t ∈ tokens source) :
    t.symbol = .endOfText ∨ t.symbol = .error .unclosedComment ∨ ∃ c ds,
      t.symbol = (lexeme c ds).1 :=
  symbol_of_mem_tokensFrom (tokens_eq source ▸ ht)

end MiniJava.Scan
