import ProofScript.Proofs.Standing
import ProofScript.Token.Lookahead

/-!
# Lookahead

A scanner that only takes tokens hands out a stream: the tokens of the script, and then what stops
them, again and again. Looking ahead leaves this stream as it is, also where it meets an error: what
was scanned in front of the error is in the buffer, and the cursor fails there again. So every call
is answered with the member of the stream that lies as far behind the taken tokens as the call
looks ahead.
-/

namespace ProofScript

/-! ## Scanning again where nothing more is read -/

namespace Cursor

variable {c next : Cursor} {t : Token}

/-- Behind the end token stands the end token. -/
theorem scan_of_eof (h : c.scan = .ok (t, next)) (ht : t.kind = .eof) :
    next.scan = .ok (t, next) := by
  obtain ⟨-, -, rfl⟩ := (Lexed.of_lexeme h).of_eof ht
  rw [scan_skipTrivia, h]

end Cursor

namespace Scanner

variable {s : Scanner} {c next : Cursor} {buffer : List Token} {t : Token} {e : LexError}

/-! ## The stream -/

/-- What a scanner hands out at the calls that take a token, if there are no others. -/
def stream : Scanner → Nat → Except LexError Token
  | s, 0 => s.next.1
  | s, n + 1 => stream s.next.2 n

theorem next_of_scan (h : c.scan = .ok (t, next)) : (mk [] c).next = (.ok t, ⟨[], next⟩) := by
  simp only [Scanner.next, h]

theorem next_of_error (h : c.scan = .error e) :
    (mk [] c).next = (.error e, ⟨[], c.skipTrivia⟩) := by
  simp only [Scanner.next, h]

/-- A token that is scanned into the buffer is handed out from there. -/
theorem stream_of_scan (h : c.scan = .ok (t, next)) :
    (mk buffer c).stream = (mk (buffer ++ [t]) next).stream := by
  funext n
  induction buffer generalizing n with
  | nil =>
    cases n with
    | zero => rw [stream, next_of_scan h]; rfl
    | succ n => rw [stream, next_of_scan h]; rfl
  | cons u buffer ih =>
    cases n with
    | zero => rfl
    | succ n => exact ih n

/-- Behind the buffer an error is met again and again. -/
theorem stream_of_error (h : c.scan = .error e) {n : Nat} (hn : buffer.length ≤ n) :
    (mk buffer c).stream n = .error e := by
  induction n generalizing buffer c with
  | zero =>
    obtain rfl : buffer = [] := List.eq_nil_of_length_eq_zero (Nat.le_zero.mp hn)
    rw [stream, next_of_error h]
  | succ n ih =>
    cases buffer with
    | nil =>
      rw [stream, next_of_error h]
      exact ih ((Cursor.scan_skipTrivia c).trans h) (Nat.zero_le n)
    | cons u buffer => exact ih h (Nat.le_of_succ_le_succ hn)

theorem stream_skipTrivia (h : c.scan = .error e) :
    (mk buffer c.skipTrivia).stream = (mk buffer c).stream := by
  funext n
  induction buffer generalizing n with
  | nil =>
    rw [stream_of_error h (Nat.zero_le n),
      stream_of_error ((Cursor.scan_skipTrivia c).trans h) (Nat.zero_le n)]
  | cons u buffer ih =>
    cases n with
    | zero => rfl
    | succ n => exact ih n

theorem stream_of_buffer {n : Nat} (h : s.buffer[n]? = some t) : s.stream n = .ok t := by
  obtain ⟨buffer, c⟩ := s
  induction n generalizing buffer with
  | zero =>
    obtain ⟨rest, rfl⟩ := List.head?_eq_some_iff.mp (List.head?_eq_getElem?.trans h)
    rfl
  | succ n ih =>
    cases buffer with
    | nil => simp at h
    | cons u buffer => exact ih buffer (by simpa using h)

/-! ## Looking ahead -/

/-- Filling the buffer leaves the stream as it is. -/
theorem stream_fill (n : Nat) (s : Scanner) : (fill n s).2.stream = s.stream := by
  induction n generalizing s with
  | zero => rfl
  | succ n ih =>
    unfold fill
    split
    · next hscan => rw [ih, ← stream_of_scan hscan]
    · next hscan => exact stream_skipTrivia hscan

theorem length_fill {n : Nat} (h : (fill n s).1 = .ok ()) :
    (fill n s).2.buffer.length = s.buffer.length + n := by
  induction n generalizing s with
  | zero => rfl
  | succ n ih =>
    unfold fill at h ⊢
    split at h
    · next hscan =>
      rw [ih h, List.length_append, List.length_singleton]
      omega
    · simp at h

/-- An error that stops the filling is met at the last place that was asked for. -/
theorem stream_of_fill_error {n k : Nat} (h : (fill n s).1 = .error e)
    (hn : n = k + 1 - s.buffer.length) : s.stream k = .error e := by
  induction n generalizing s with
  | zero => simp [fill] at h
  | succ n ih =>
    unfold fill at h
    split at h
    · next t next hscan =>
      have hlen : n = k + 1 - (s.buffer ++ [t]).length := by
        rw [List.length_append, List.length_singleton]
        omega
      rw [← ih h hlen, ← stream_of_scan hscan]
    · next hscan =>
      obtain rfl := Except.error.inj h
      exact stream_of_error hscan (by omega)

/-- Looking ahead shows a member of the stream and leaves the stream as it is. -/
theorem peek_stream (s : Scanner) (n : Nat) :
    (s.peek n).1 = s.stream n ∧ (s.peek n).2.stream = s.stream := by
  have hstream := stream_fill (n + 1 - s.buffer.length) s
  unfold peek
  split
  · next e s' hfill =>
    rw [hfill] at hstream
    exact ⟨(stream_of_fill_error (congrArg Prod.fst hfill) rfl).symm, hstream⟩
  · next s' hfill =>
    have hlen := length_fill (congrArg Prod.fst hfill)
    rw [hfill] at hstream hlen
    have hn : n < s'.buffer.length := by
      simp only at hlen
      omega
    refine ⟨?_, hstream⟩
    rw [← hstream, stream_of_buffer (List.getElem?_eq_getElem hn), List.getElem?_eq_getElem hn]
    rfl

/-! ## Sequences of calls -/

/-- A call on a scanner: take the next token, look at it, or look past it. -/
inductive Call where
  | next
  | peek
  | peekPast (n : Nat)
deriving DecidableEq, Repr

/-- The number of places past the next token that a call looks. -/
def Call.ahead : Call → Nat
  | .next => 0
  | .peek => 0
  | .peekPast n => n

/-- The answer to a call, and the scanner after it. -/
def call (s : Scanner) : Call → Except LexError Token × Scanner
  | .next => s.next
  | .peek => s.peek 0
  | .peekPast n => s.peek n

/-- The answers to calls that are made one after the other. -/
def answers : Scanner → List Call → List (Except LexError Token)
  | _, [] => []
  | s, call :: calls => (s.call call).1 :: answers (s.call call).2 calls

/-- A call shows the member of the stream at which it looks, and the stream behind it starts at the
next member only if the call has taken this one. -/
theorem call_stream (s : Scanner) (call : Call) :
    (s.call call).1 = s.stream call.ahead ∧
      ∀ k, (s.call call).2.stream k = s.stream ([call].count .next + k) := by
  cases call with
  | next =>
    refine ⟨rfl, fun k => ?_⟩
    rw [show [Call.next].count .next = 1 from rfl, Nat.add_comm, stream]
    rfl
  | peek =>
    obtain ⟨hanswer, hstream⟩ := s.peek_stream 0
    refine ⟨hanswer, fun k => ?_⟩
    rw [show [Call.peek].count .next = 0 from rfl, Nat.zero_add]
    exact congrFun hstream k
  | peekPast n =>
    obtain ⟨hanswer, hstream⟩ := s.peek_stream n
    refine ⟨hanswer, fun k => ?_⟩
    rw [show [Call.peekPast n].count .next = 0 from rfl, Nat.zero_add]
    exact congrFun hstream k

/-- Each call shows a member of the stream, counted from the tokens that were taken before. -/
theorem answers_stream (s : Scanner) (calls : List Call) (k : Nat) :
    (s.answers calls)[k]? =
      calls[k]?.map fun call => s.stream ((calls.take k).count .next + call.ahead) := by
  induction calls generalizing s k with
  | nil => rfl
  | cons first calls ih =>
    obtain ⟨hanswer, hstream⟩ := s.call_stream first
    cases k with
    | zero => simp [answers, hanswer]
    | succ k =>
      have hcount (m : Nat) : [first].count .next + ((calls.take k).count .next + m) =
          ((first :: calls).take (k + 1)).count .next + m := by
        rw [List.take_succ_cons, ← List.singleton_append (l := calls.take k), List.count_append,
          Nat.add_assoc]
      rw [answers, List.getElem?_cons_succ, List.getElem?_cons_succ, ih]
      simp only [hstream, hcount]

/-! ## The stream of a script -/

theorem stream_of_eof (h : c.scan = .ok (t, next)) (ht : t.kind = .eof) (n : Nat) :
    (mk [] c).stream n = .ok t := by
  induction n generalizing c with
  | zero => rw [stream, next_of_scan h]
  | succ n ih =>
    rw [stream, next_of_scan h]
    exact ih (Cursor.scan_of_eof h ht)

/-- A scanner hands out the tokens that repeated scanning collects, and then what stops them. -/
theorem stream_eq_peek {fuel : Nat} (hfuel : c.rest.length < fuel) (n : Nat) :
    (mk [] c).stream n = (TokenStream.collect fuel c).peek n := by
  induction fuel generalizing c n with
  | zero => simp at hfuel
  | succ fuel ih =>
    unfold TokenStream.collect
    split
    · next e hscan => exact stream_of_error hscan (Nat.zero_le n)
    next t next hscan =>
    split
    · next heof => exact stream_of_eof hscan heof n
    next hkind =>
    cases n with
    | zero => rw [stream, next_of_scan hscan]; rfl
    | succ n =>
      rw [stream, next_of_scan hscan]
      exact ih (Cursor.length_lt_of_scan hscan hkind hfuel) n

/-- Whatever calls are made on the scanner of a script, each is answered with the member of its
stream that lies as far behind the taken tokens as the call looks ahead. The stream holds tokens
that are not the end, and behind them the end token or an error, for ever. -/
theorem answers_script (src : List UInt8) (calls : List Call) :
    (∀ k, ((ofSource src).answers calls)[k]? = calls[k]?.map fun call =>
      (ofSource src).stream ((calls.take k).count .next + call.ahead)) ∧
    (∀ n, (ofSource src).stream n = (TokenStream.ofSource src).peek n) ∧
    (∀ t ∈ (TokenStream.ofSource src).tokens, t.kind ≠ .eof) ∧
    (TokenStream.ofSource src).Closed := by
  refine ⟨answers_stream _ calls, fun n => ?_, fun t ht => ?_, ?_⟩
  · exact stream_eq_peek (Nat.lt_succ_self _) n
  · exact (TokenStream.collect_spelled ht).2
  · exact TokenStream.collect_closed _ _

/-- In `a =` the place behind `a` is looked at in vain, and `a` is handed out all the same. -/
theorem answers_script_failed :
    let s := ofSource [0x61, 0x20, 0x3D]
    (s.peek 1).1 = .error ⟨⟨1, 3⟩, '='⟩ ∧
      (s.answers [.peekPast 1, .next, .peek])[1]? = some (.ok ⟨.identifier, "a", ⟨1, 1⟩⟩) ∧
      (s.answers [.peekPast 1, .next, .peek])[2]? = some (.error ⟨⟨1, 3⟩, '='⟩) := by
  refine ⟨by rfl, ?_, ?_⟩
  · rw [(answers_script _ _).1]
    rfl
  · rw [(answers_script _ _).1]
    rfl

end Scanner

end ProofScript
