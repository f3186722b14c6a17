import MiniJava.Proofs.Token.Reading
/-!
The scanner as it is called: each call finds one token and reports it if it is an error. Calling it
again and again gives the tokens of the source one by one, then the end of the text for good.
-/
namespace MiniJava

theorem Token.message?_isSome (t : Token) : t.message?.isSome = t.symbol.isError := by
  rcases t with ⟨s, span⟩
  cases s <;> rfl

namespace Scan

namespace Scanner

/-- The scanner after a number of calls. -/
def after : Nat → Scanner → Scanner
  | 0, s => s
  | n + 1, s => after n s.call.2

variable {s : Scanner} {t ending : Token} {ts : List Token}

theorem call_log (s : Scanner) : s.call.2.log = s.log ++ s.call.1.message?.toList := rfl

theorem skip_ended (s : Scanner) (hgap : s.skip.1 = none)
    (hline : s.skip.2.line = []) : s.skip.2.ended = true := by
  fun_induction skip s with
  | case1 s hended => exact hended
  | case2 | case3 | case4 | case6 => exact ‹_ → _ → _› hgap hline
  | case5 => cases hgap
  | case7 s _ c cs _ _ hcons => cases hcons.symm.trans hline

/-- At the end of the text a call changes nothing. -/
theorem call_of_ended (hended : s.ended = true) (hline : s.line = []) :
    s.call = (⟨.endOfText, .line s.number⟩, s) := by
  have hskip : s.skip = (none, s) := by rw [skip, dif_pos hended]
  have hfind : s.find = (⟨.endOfText, .line s.number⟩, s) := by simp only [find, hskip, hline]
  have hlog : s.log ++ (⟨.endOfText, .line s.number⟩ : Token).message?.toList = s.log :=
    List.append_nil _
  rw [call, hfind, hlog]

/-- Once the end of the text is found, every call finds it. -/
theorem call_fixed (h : s.call.1.symbol = .endOfText) : s.call.2.call = s.call := by
  have hended := s.skip_ended
  unfold call find at h ⊢
  generalize s.skip = r at h hended ⊢
  rcases r with ⟨_ | opened, t⟩
  · cases hline : t.line with
    | nil =>
      simp only [hline]
      exact call_of_ended (hended rfl hline) rfl
    | cons c cs =>
      simp only [hline] at h
      exact absurd h (lexeme_ne_endOfText c cs)
  · cases h

theorem message?_of_endOfText (h : t.symbol = .endOfText) : t.message? = none := by
  have hsome := t.message?_isSome
  rw [h] at hsome
  exact Option.isSome_eq_false_iff.mp hsome |> Option.isNone_iff_eq_none.mp

/-- A call takes the first of the tokens to come, and the last one stays. -/
theorem tokens_call (s : Scanner) :
    s.tokens = s.call.1 :: s.call.2.tokens ∨
      s.call.1.symbol = .endOfText ∧ s.tokens = [s.call.1] ∧ s.call.2.tokens = [s.call.1] := by
  by_cases hend : s.call.1.symbol = .endOfText
  · have hagain := call_fixed hend
    right
    rw [tokens, tokens, hagain, dif_pos hend, dif_pos hend]
    exact ⟨hend, rfl, rfl⟩
  · left
    rw [tokens, dif_neg hend]

theorem tokens_ne_nil (s : Scanner) : s.tokens ≠ [] := by
  rcases s.tokens_call with heq | ⟨-, heq, -⟩
  · rw [heq]
    exact List.cons_ne_nil _ _
  · rw [heq]
    exact List.cons_ne_nil _ _

theorem call_of_nil (h : s.tokens = [ending]) :
    s.call.1 = ending ∧ s.call.2.tokens = [ending] ∧ s.call.2.log = s.log := by
  rcases s.tokens_call with heq | ⟨hend, heq, hrest⟩
  · rw [heq, List.cons_eq_cons] at h
    exact absurd h.2 (tokens_ne_nil _)
  · cases h.symm.trans heq
    refine ⟨rfl, hrest, ?_⟩
    rw [call_log, message?_of_endOfText hend]
    exact List.append_nil _

theorem call_of_cons (h : s.tokens = t :: ts ++ [ending]) :
    s.call.1 = t ∧ s.call.2.tokens = ts ++ [ending] ∧
      s.call.2.log = s.log ++ t.message?.toList := by
  rcases s.tokens_call with heq | ⟨-, heq, -⟩
  · rw [h, List.cons_append, List.cons_eq_cons] at heq
    refine ⟨heq.1.symm, heq.2.symm, ?_⟩
    rw [call_log, heq.1]
  · rw [h, List.cons_append, List.cons_eq_cons] at heq
    exact absurd heq.2 (by simp)

theorem messages_cons (t : Token) (ts : List Token) :
    messages (t :: ts) = t.message?.toList ++ messages ts := by
  rw [messages, List.filterMap_cons]
  cases t.message? <;> rfl

theorem after_spec (h : s.tokens = ts ++ [ending]) (k : Nat) :
    (after k s).tokens = ts.drop k ++ [ending] ∧
      (after k s).log = s.log ++ messages (ts.take k) := by
  induction k generalizing s ts with
  | zero => exact ⟨h, (List.append_nil _).symm⟩
  | succ k ih =>
    cases ts with
    | nil =>
      obtain ⟨-, hrest, hlog⟩ := call_of_nil h
      have hnone : s.call.2.tokens = [] ++ [ending] := hrest
      obtain ⟨htokens, hlogs⟩ := ih hnone
      rw [List.drop_nil] at htokens
      rw [List.take_nil, hlog] at hlogs
      exact ⟨htokens, hlogs⟩
    | cons t ts =>
      obtain ⟨-, hrest, hlog⟩ := call_of_cons h
      obtain ⟨htokens, hlogs⟩ := ih hrest
      refine ⟨htokens, ?_⟩
      rw [after, hlogs, hlog, List.take_succ_cons, messages_cons, List.append_assoc]

theorem messages_append (ts us : List Token) : messages (ts ++ us) = messages ts ++ messages us :=
  List.filterMap_append

/-- After some calls there is a report on each of the errors among the first tokens, and no
other. -/
theorem log_after (source : Bytes) (k : Nat) :
    (after k (ofSource source)).log = messages ((Scan.tokens source).take k) := by
  obtain ⟨ts, last, htokens, hend, -⟩ := Scan.tokens_ended source
  have hlast : messages ([last].take (k - ts.length)) = [] := by
    cases k - ts.length with
    | zero => rfl
    | succ n =>
      rw [List.take_succ_cons, List.take_nil, messages_cons, message?_of_endOfText hend]
      rfl
  rw [htokens, List.take_append, messages_append, hlast, List.append_nil]
  exact (after_spec htokens k).2

theorem call_after (h : s.tokens = ts ++ [ending]) (k : Nat) :
    (after k s).call.1 = ts[k]?.getD ending := by
  obtain ⟨htokens, -⟩ := after_spec h k
  have hfirst : ts[k]? = (ts.drop k)[0]? := by rw [List.getElem?_drop, Nat.add_zero]
  rw [hfirst]
  cases hdrop : ts.drop k with
  | nil =>
    rw [hdrop] at htokens
    exact (call_of_nil htokens).1
  | cons t us =>
    rw [hdrop] at htokens
    exact (call_of_cons htokens).1

end Scanner

open Scanner in
/-- The scanner splits every source without loss. There is one way in which the text falls into gaps
and symbols, and it gives the tokens, followed by the end of the text. They stand on lines that
never decrease, there are no more of them than bytes, and calling the scanner gives them one after
the other and then the end of the text on every call, where a call makes a report exactly if its
token is an error. -/
theorem source_splits (source : Bytes) :
    ∃ ts : List Token, ∃ ending : Token,
      (∀ us, Splits [] source.toChars us ↔ us = ts) ∧
      tokens source = ts ++ [ending] ∧ ending.symbol = .endOfText ∧
      (∀ t ∈ ts, t.symbol ≠ .endOfText) ∧
      (tokens source).Pairwise (fun t u => t.span.first ≤ u.span.first) ∧
      ts.length ≤ source.length ∧
      ∀ k, let s := after k (ofSource source)
        s.call.1 = ts[k]?.getD ending ∧ s.log = messages (ts.take k) ∧
        ∃ reports, s.call.2.log = s.log ++ reports ∧
          if s.call.1.symbol.isError then ∃ m, s.call.1.message? = some m ∧ reports = [m]
          else reports = [] := by
  obtain ⟨ts, hsplits⟩ := exists_splits [] source.toChars
  have htokens := hsplits.tokens_eq
  refine ⟨ts, _, fun us => ⟨fun hus => ?_, fun hus => hus ▸ hsplits⟩, htokens, rfl,
    hsplits.ne_endOfText,
    tokens_sorted source, ?_, fun k => ⟨call_after htokens k, ?_, _, call_log _, ?_⟩⟩
  · exact List.append_cancel_right (hus.tokens_eq.symm.trans htokens)
  · have hlength := hsplits.length_le
    rwa [Bytes.toChars, List.length_map] at hlength
  · exact (after_spec htokens k).2
  · have hsome := Token.message?_isSome (after k (ofSource source)).call.1
    split
    · rename_i herror
      rw [herror, Option.isSome_iff_exists] at hsome
      obtain ⟨m, hm⟩ := hsome
      exact ⟨m, hm, by rw [hm]; rfl⟩
    · rename_i herror
      rw [Bool.eq_false_iff.mpr herror, Option.isSome_eq_false_iff, Option.isNone_iff_eq_none]
        at hsome
      rw [hsome]
      rfl

end Scan

end MiniJava
