import ProtoSchema.Proofs.Token.Number

/-!
The texts of string tokens. A string closes at a place that its own text determines, so one that
was read without a remark is read again whatever follows it.
-/

namespace ProtoSchema.Scan

open List

/-! ## Escapes -/

variable {as r : List Char} {b c quote : Char}

/-- A run of at most `k` characters that ends before `b` does not depend on what follows `b`. -/
theorem length_takeWhile_take {p : Char → Bool} {k : Nat}
    (h : (((as ++ b :: r).take k).takeWhile p).length = as.length) (r' : List Char) :
    (((as ++ b :: r').take k).takeWhile p).length = as.length := by
  induction as generalizing k with
  | nil =>
    cases k with
    | zero => rfl
    | succ k =>
      cases hb : p b with
      | false => simp [hb]
      | true => simp [hb] at h
  | cons a as ih =>
    cases k with
    | zero => simp at h
    | succ k =>
      cases ha : p a with
      | false => simp [ha] at h
      | true =>
        simp only [cons_append, take_succ_cons, takeWhile_cons_of_pos ha,
          length_cons, Nat.add_right_cancel_iff] at h ⊢
        exact ih h

private theorem escapeLength_pos (h : c ≠ '\n') (rest : List Char) :
    0 < (escapeLength (c :: rest)).1 := by
  simp only [escapeLength, h, if_false]
  split
  · simp
  · split
    · next ho => simp [ho]
    · repeat' split
      all_goals simp

/-- An escape that ends before `b` does not depend on what follows `b`. -/
theorem escapeLength_append (h : (escapeLength (as ++ b :: r)).1 = as.length) (r' : List Char) :
    escapeLength (as ++ b :: r') = escapeLength (as ++ b :: r) := by
  cases as with
  | nil =>
    by_cases hb : b = '\n'
    · simp [escapeLength, hb]
    · have hpos := escapeLength_pos hb r
      rw [nil_append, length_nil] at h
      omega
  | cons c as =>
    have hrun {p : Char → Bool} {k : Nat}
        (hk : (((as ++ b :: r).take k).takeWhile p).length = as.length) :
        (((as ++ b :: r').take k).takeWhile p).length =
          (((as ++ b :: r).take k).takeWhile p).length := by
      rw [hk, length_takeWhile_take hk r']
    simp only [cons_append, escapeLength, length_cons] at h ⊢
    split at h
    · simp at h
    · next hnl =>
      simp only [if_neg hnl]
      split at h
      · next hs => simp only [if_pos hs]
      · next hs =>
        simp only [if_neg hs]
        split at h
        · next ho =>
          simp only [take_succ_cons, takeWhile_cons_of_pos ho, length_cons,
            Nat.add_right_cancel_iff] at h
          simp only [if_pos ho, take_succ_cons, takeWhile_cons_of_pos ho, length_cons, hrun h]
        · next ho =>
          simp only [if_neg ho]
          split at h
          · next hx => simp only [if_pos hx, hrun (Nat.succ.inj h)]
          · next hx =>
            simp only [if_neg hx]
            split at h
            · next hu => simp only [if_pos hu, hrun (Nat.succ.inj h)]
            · next hu =>
              simp only [if_neg hu]
              split at h
              · next hU => simp only [if_pos hU, hrun (Nat.succ.inj h)]
              · next hU => simp only [if_neg hU]

/-! ## Strings -/

theorem isQuote_iff : isQuote c = true ↔ c = '"' ∨ c = '\'' := by
  simp [isQuote]

/-- What follows the opening quote of a string up to the closing one. -/
def Closes (quote : Char) (body : List Char) : Prop :=
  ∀ (p : Position) (rest : List Char), stringBody quote p (body ++ rest) = ⟨body, rest, [], true⟩

def QuotedText (t : List Char) : Prop :=
  ∃ quote body, t = quote :: body ∧ isQuote quote = true ∧ Closes quote body

namespace Closes

variable {quote : Char} {body : List Char}

private theorem ne_newline_of_isQuote (h : isQuote quote = true) : quote ≠ '\n' := by
  rintro rfl
  revert h
  decide

theorem ne_nil (h : Closes quote body) : body ≠ [] := by
  rintro rfl
  have hnil := h Position.origin []
  rw [append_nil, stringBody] at hnil
  cases hnil

theorem quote_self (h : isQuote quote = true) : Closes quote [quote] := by
  intro p rest
  rw [singleton_append, stringBody]
  simp [ne_newline_of_isQuote h]

theorem cons (h : Closes quote body) {c : Char} (hnl : c ≠ '\n') (hq : c ≠ quote)
    (hb : c ≠ '\\') : Closes quote (c :: body) := by
  intro p rest
  rw [cons_append, stringBody]
  simp [hnl, hq, hb, h (p.step c) rest]

/-- An escape that has the right length in front of every text. -/
theorem escape (h : Closes quote body) (hq : quote ≠ '\\') {e : List Char}
    (he : ∀ rest, escapeLength (e ++ (body ++ rest)) = (e.length, true)) :
    Closes quote ('\\' :: e ++ body) := by
  intro p rest
  have hlength := he rest
  rw [cons_append, cons_append, append_assoc, stringBody]
  simp [hlength, hq.symm, h (p.advance ('\\' :: e)) rest]

end Closes

/-- A string that was closed without a remark closes whatever follows it. -/
theorem closes_stringBody {p : Position} {cs : List Char} (hq : isQuote quote = true)
    (hclosed : (stringBody quote p cs).closed = true)
    (hremarks : (stringBody quote p cs).remarks = []) :
    Closes quote (stringBody quote p cs).text := by
  fun_induction stringBody quote p cs with
  | case1 => cases hclosed
  | case2 => cases hclosed
  | case3 => exact .quote_self hq
  | case4 p rest n remark _ hquote here body ih =>
    obtain ⟨hremark, hbodyRemarks⟩ := append_eq_nil_iff.mp hremarks
    have hbody := ih hclosed hbodyRemarks
    obtain ⟨b, bs, hbs⟩ := exists_cons_of_ne_nil hbody.ne_nil
    have hdrop : rest.drop n = b :: (bs ++ body.rest) := by
      rw [← stringBody_text_rest quote (p.advance here) (rest.drop n), ← cons_append, ← hbs]
    have hrest : rest.take n ++ b :: (bs ++ body.rest) = rest := by
      rw [← hdrop, take_append_drop]
    have hlength : (rest.take n).length = n := by
      have hpos := congrArg List.length hdrop
      simp only [length_drop, length_cons] at hpos
      rw [length_take]
      omega
    have hescape : escapeLength rest = (n, true) := by
      refine Prod.ext rfl ?_
      simpa [remark] using hremark
    refine hbody.escape (fun h => hquote h.symm) fun rest' => ?_
    rw [hbs, cons_append, escapeLength_append (r := bs ++ body.rest) (by rw [hrest, hlength]),
      hrest, hescape, hlength]
  | case5 p c rest hnl hquote hb body ih => exact (ih hclosed hremarks).cons hnl hquote hb

theorem string_append {t rest : List Char} {body : List Char} (ht : t = quote :: body)
    (h : Closes quote body) (p : Position) :
    string p quote (body ++ rest) = ⟨.string, t, rest, []⟩ := by
  simp [string, h (p.step quote) rest, ht]

theorem quotedText_of_string {p : Position} {cs : List Char} (hq : isQuote quote = true)
    (h : (string p quote cs).remarks = []) : QuotedText (string p quote cs).text := by
  simp only [string, append_eq_nil_iff] at h
  have hclosed : (stringBody quote (p.step quote) cs).closed = true := by simpa using h.2
  exact ⟨quote, _, rfl, hq, closes_stringBody hq hclosed h.1⟩

end ProtoSchema.Scan
