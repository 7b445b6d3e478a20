import WebServer.Http.Request
import WebServer.Lib.Reads

/-!
# The parser and the received bytes

`handle_request_line` and `handle_request_head` move their index over delimiters by fixed amounts,
without looking at what is there, and the loop over the headers is entered again from wherever this
leads. `parseRead` is the parser on a buffer that may end anywhere, with a record of its reads and a
limit on the turns of each loop; when more turns would be needed there is no value.

`parse_confined`: with any limit above the number of received bytes the parser returns; it reads
only the received bytes, and the index it ends at is at most five behind them.
-/

namespace WebServer.Http

open Lib

/-! ## The parser with its reads -/

section Parser

variable (readLength limit : ℕ)

/-- A loop over the bytes up to a stop. A turn looks at one byte; that the source names it two or
three times is recorded once. -/
def scanRead (stop : UInt8 → Bool) : ℕ → ℕ → Bytes → Reads UInt8 (Bytes × ℕ)
  | 0, _, _ => Reads.stuck
  | turns + 1, index, temp =>
    if index < readLength then do
      let b ← Reads.read index
      if stop b then pure (temp, index)
      else scanRead stop turns (index + 1) (temp ++ [b])
    else pure (temp, index)

/-- `Httpdata::handle_request_line`. -/
def requestLineRead (index : ℕ) (recvHttp : HttpHandle) : Reads UInt8 (HttpHandle × ℕ) := do
  let (req, index) ← scanRead readLength isSpace limit index []
  let (uri, index) ← scanRead readLength isSpace limit (index + 1) []
  let (version, index) ← scanRead readLength isEol limit (index + 1) []
  pure ({ recvHttp with req := req, uri := uri, version := version }, index + 2)

/-- The outer loop of `Httpdata::handle_request_head`. -/
def headRead : ℕ → ℕ → HttpHandle → Reads UInt8 (HttpHandle × ℕ)
  | 0, _, _ => Reads.stuck
  | turns + 1, index, recvHttp =>
    if index < readLength then do
      let b ← Reads.read index
      if isEol b then pure (recvHttp, index)
      else do
        let (key, index) ← scanRead readLength isColon limit index []
        let (value, index) ← scanRead readLength isEol limit (index + 2) []
        let requestHead := Function.update recvHttp.requestHead key (some value)
        headRead turns (index + 2) { recvHttp with requestHead := requestHead }
    else pure (recvHttp, index)

/-- `Httpdata::handle_request_head`. -/
def requestHeadRead (index : ℕ) (recvHttp : HttpHandle) : Reads UInt8 (HttpHandle × ℕ) := do
  let (recvHttp, index) ← headRead readLength limit limit index recvHttp
  pure (recvHttp, index + 1)

/-- The two calls of `handle_http`. -/
def parseRead : Reads UInt8 (HttpHandle × ℕ) := do
  let (recvHttp, index) ← requestLineRead readLength limit 0 .empty
  requestHeadRead readLength limit index recvHttp

end Parser

/-! ## It does what the parser does -/

/-- A loop does not move its index back. -/
theorem le_scanLoop (buff : ℕ → UInt8) (readLength : ℕ) (stop : UInt8 → Bool) (fuel i : ℕ)
    (temp : Bytes) : i ≤ (scanLoop buff readLength stop fuel i temp).2 := by
  induction fuel generalizing i temp with
  | zero => exact le_rfl
  | succ fuel ih =>
    unfold scanLoop
    split
    · exact (Nat.le_succ i).trans (ih (i + 1) _)
    · exact le_rfl

section

variable {mem : ℕ → UInt8} {n limit : ℕ}

/-- A loop with more turns than there are bytes left comes to its end. -/
theorem scanRead_returns (stop : UInt8 → Bool) {turns fuel i : ℕ} (temp : Bytes)
    (hturns : n - i < turns) (hf : n - i ≤ fuel) :
    Returns mem n (scanRead n stop turns i temp) (scanLoop mem n stop fuel i temp) := by
  induction turns generalizing fuel i temp with
  | zero => exact absurd hturns (Nat.not_lt_zero _)
  | succ turns ih =>
    rw [scanRead]
    by_cases hi : i < n
    · obtain ⟨fuel, rfl⟩ : ∃ k, fuel = k + 1 := ⟨fuel - 1, by omega⟩
      rw [if_pos hi, scanLoop]
      apply (Returns.read hi).bind
      cases hstop : stop (mem i) with
      | true =>
        simp only [Bool.true_eq_false, and_false, if_false, if_true]
        exact Returns.pure _
      | false =>
        simp only [hi, true_and, if_true, Bool.false_eq_true, if_false]
        exact ih _ (by omega) (by omega)
    · have hend : scanLoop mem n stop fuel i temp = (temp, i) := by
        cases fuel <;> simp [scanLoop, hi]
      rw [if_neg hi, hend]
      exact Returns.pure _

/-- The same from the start of a loop. -/
theorem scanRead_returns_scan (hlimit : n < limit) (stop : UInt8 → Bool) (i : ℕ) :
    Returns mem n (scanRead n stop limit i []) (scan mem n stop i) :=
  scanRead_returns stop [] (by omega) le_rfl

theorem requestLineRead_returns (hlimit : n < limit) (i : ℕ) (recvHttp : HttpHandle) :
    Returns mem n (requestLineRead n limit i recvHttp) (handleRequestLine mem n i recvHttp) := by
  unfold requestLineRead handleRequestLine
  apply (scanRead_returns_scan hlimit isSpace i).bind
  obtain ⟨req, i⟩ := scan mem n isSpace i
  apply (scanRead_returns_scan hlimit isSpace (i + 1)).bind
  dsimp only
  obtain ⟨uri, i⟩ := scan mem n isSpace (i + 1)
  apply (scanRead_returns_scan hlimit isEol (i + 1)).bind
  dsimp only
  obtain ⟨version, i⟩ := scan mem n isEol (i + 1)
  exact Returns.pure _

/-- The loop over the headers: each of its turns moves the index on, so that it, too, comes to its
end. -/
theorem headRead_returns (hlimit : n < limit) {turns fuel i : ℕ} (recvHttp : HttpHandle)
    (hturns : n - i < turns) (hf : n - i ≤ fuel) :
    Returns mem n (headRead n limit turns i recvHttp) (headLoop mem n fuel i recvHttp) := by
  induction turns generalizing fuel i recvHttp with
  | zero => exact absurd hturns (Nat.not_lt_zero _)
  | succ turns ih =>
    rw [headRead]
    by_cases hi : i < n
    · obtain ⟨fuel, rfl⟩ : ∃ k, fuel = k + 1 := ⟨fuel - 1, by omega⟩
      rw [if_pos hi, headLoop]
      apply (Returns.read hi).bind
      cases hstop : isEol (mem i) with
      | true =>
        simp only [Bool.true_eq_false, and_false, if_false, if_true]
        exact Returns.pure _
      | false =>
        simp only [hi, true_and, if_true, Bool.false_eq_true, if_false]
        have hkey : i ≤ (scan mem n isColon i).2 := le_scanLoop mem n isColon _ i []
        apply (scanRead_returns_scan hlimit isColon i).bind
        rcases hj : scan mem n isColon i with ⟨key, j⟩
        rw [hj] at hkey
        have hvalue : j + 2 ≤ (scan mem n isEol (j + 2)).2 := le_scanLoop mem n isEol _ (j + 2) []
        apply (scanRead_returns_scan hlimit isEol (j + 2)).bind
        dsimp only at hkey ⊢
        rcases hk : scan mem n isEol (j + 2) with ⟨value, k⟩
        rw [hk] at hvalue
        dsimp only at hvalue ⊢
        exact ih _ (by omega) (by omega)
    · have hend : headLoop mem n fuel i recvHttp = (recvHttp, i) := by
        cases fuel <;> simp [headLoop, hi]
      rw [if_neg hi, hend]
      exact Returns.pure _

theorem requestHeadRead_returns (hlimit : n < limit) (i : ℕ) (recvHttp : HttpHandle) :
    Returns mem n (requestHeadRead n limit i recvHttp) (handleRequestHead mem n i recvHttp) := by
  unfold requestHeadRead handleRequestHead
  apply (headRead_returns hlimit recvHttp (by omega) le_rfl).bind
  exact Returns.pure _

/-- **`parseRead` is `parse`**, on every buffer that begins with the received bytes. -/
theorem parseRead_returns (hlimit : n < limit) (mem : ℕ → UInt8) :
    Returns mem n (parseRead n limit) (parse mem n) := by
  unfold parseRead parse
  apply (requestLineRead_returns hlimit 0 .empty).bind
  exact requestHeadRead_returns hlimit _ _

end

/-! ## Where the index ends -/

theorem scanLoop_le (mem : ℕ → UInt8) (n : ℕ) (stop : UInt8 → Bool) (fuel i : ℕ)
    (temp : Bytes) :
    (scanLoop mem n stop fuel i temp).2 ≤ max i n := by
  induction fuel generalizing i temp with
  | zero => exact le_max_left i n
  | succ fuel ih =>
    unfold scanLoop
    split
    · rename_i hi
      have hnext := ih (i + 1) (temp ++ [mem i])
      omega
    · exact le_max_left i n

theorem scan_le (mem : ℕ → UInt8) (n : ℕ) (stop : UInt8 → Bool) (i : ℕ) :
    (scan mem n stop i).2 ≤ max i n :=
  scanLoop_le mem n stop _ i []

/-- A turn begins below `n`, and ends at most four behind it. -/
theorem headLoop_le (mem : ℕ → UInt8) (n : ℕ) (fuel i : ℕ) (recvHttp : HttpHandle) :
    (headLoop mem n fuel i recvHttp).2 ≤ max i (n + 4) := by
  induction fuel generalizing i recvHttp with
  | zero => exact le_max_left i (n + 4)
  | succ fuel ih =>
    unfold headLoop
    split
    · rename_i hi
      have hkey := scan_le mem n isColon i
      rcases hj : scan mem n isColon i with ⟨key, j⟩
      have hvalue := scan_le mem n isEol (j + 2)
      dsimp only
      rcases hk : scan mem n isEol (j + 2) with ⟨value, k⟩
      rw [hj] at hkey
      rw [hk] at hvalue
      dsimp only at hkey hvalue ⊢
      have hnext := ih (k + 2)
        { recvHttp with requestHead := Function.update recvHttp.requestHead key (some value) }
      omega
    · exact le_max_left i (n + 4)

theorem handleRequestLine_le (mem : ℕ → UInt8) (n : ℕ) (i : ℕ) (recvHttp : HttpHandle) :
    (handleRequestLine mem n i recvHttp).2 ≤ max i n + 4 := by
  unfold handleRequestLine
  have hreq := scan_le mem n isSpace i
  rcases hj : scan mem n isSpace i with ⟨req, j⟩
  have huri := scan_le mem n isSpace (j + 1)
  dsimp only
  rcases hk : scan mem n isSpace (j + 1) with ⟨uri, k⟩
  have hversion := scan_le mem n isEol (k + 1)
  dsimp only
  rcases hl : scan mem n isEol (k + 1) with ⟨version, l⟩
  rw [hj] at hreq
  rw [hk] at huri
  rw [hl] at hversion
  dsimp only at hreq huri hversion ⊢
  omega

/-- The index at which `handle_http` finds the body. -/
theorem parse_le (mem : ℕ → UInt8) (n : ℕ) : (parse mem n).2 ≤ n + 5 := by
  unfold parse
  have hline := handleRequestLine_le mem n 0 .empty
  rcases hi : handleRequestLine mem n 0 .empty with ⟨recvHttp, i⟩
  have hhead := headLoop_le mem n (n - i) i recvHttp
  rw [hi] at hline
  dsimp only [handleRequestHead] at hline ⊢
  omega

/-- **The parser is confined to the received bytes.** On two buffers that agree on their first `n`
bytes, and hold anything or nothing behind them, it returns, with every limit above `n`, the same
request and the same index, at most `n + 5`, after the same reads, all of them below `n`. -/
theorem parse_confined (n : ℕ) (buff buff' : ℕ → Option UInt8)
    (h : ∀ i < n, ∃ b, buff i = some b ∧ buff' i = some b) :
    ∃ (recvHttp : HttpHandle) (index : ℕ), index ≤ n + 5 ∧ ∀ limit > n, ∃ reads : List ℕ,
      (∀ i ∈ reads, i < n) ∧
      parseRead n limit buff = some ((recvHttp, index), reads) ∧
      parseRead n limit buff' = some ((recvHttp, index), reads) := by
  have hbuff : Holds (fun i => (buff i).getD 0) n buff := by
    intro i hi
    obtain ⟨b, hb, -⟩ := h i hi
    simp [hb]
  have hagree : ∀ i < n, buff i = buff' i := by
    intro i hi
    obtain ⟨b, hb, hb'⟩ := h i hi
    rw [hb, hb']
  refine ⟨(parse (fun i => (buff i).getD 0) n).1, (parse (fun i => (buff i).getD 0) n).2,
    parse_le _ n, fun limit hlimit => ?_⟩
  exact (parseRead_returns hlimit _).eq_of_agree hbuff hagree

/-- A buffer that ends behind these bytes. -/
def endingBuff (chunk : Bytes) : ℕ → Option UInt8 := fun i => chunk[i]?

/-- A request line that breaks off, at the end of its buffer and before a stop that was not
received. -/
theorem parse_confined_truncated :
    (∀ i < 4, ∃ b, endingBuff (str "GET ") i = some b ∧ endingBuff (str "GET / ") i = some b) ∧
    ∃ (recvHttp : HttpHandle) (index : ℕ), index ≤ 4 + 5 ∧ ∀ limit > 4, ∃ reads : List ℕ,
      (∀ i ∈ reads, i < 4) ∧
      parseRead 4 limit (endingBuff (str "GET ")) = some ((recvHttp, index), reads) ∧
      parseRead 4 limit (endingBuff (str "GET / ")) = some ((recvHttp, index), reads) := by
  have hagree : ∀ i < 4, ∃ b, endingBuff (str "GET ") i = some b ∧
      endingBuff (str "GET / ") i = some b := by
    intro i hi
    have hbytes : ∀ i < 4, (endingBuff (str "GET ") i).isSome ∧
        endingBuff (str "GET ") i = endingBuff (str "GET / ") i := by decide
    obtain ⟨hsome, heq⟩ := hbytes i hi
    obtain ⟨b, hb⟩ := Option.isSome_iff_exists.mp hsome
    exact ⟨b, hb, heq ▸ hb⟩
  exact ⟨hagree, parse_confined 4 _ _ hagree⟩

end WebServer.Http
