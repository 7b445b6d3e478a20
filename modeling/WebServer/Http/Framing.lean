import WebServer.Http.Response
import WebServer.Lib.Lines

/-!
# Framing of responses

The head of a response is four lines and a blank line. The only bytes of it that come from the
client are those of the version, and the loop that reads the version stops at the first byte of a
line end, so that they make no line of their own. A client that looks for the first blank line finds
the end of the head, whatever the body is, and the number it reads in `Content-Length` is the length
of the body (`response_well_framed`).
-/

namespace WebServer.Http

open Lib

/-! ## Decimal numbers -/

/-- What a client makes of the digits of `Content-Length`. -/
def parseDecimal (s : Bytes) : Option ℕ :=
  if s ≠ [] ∧ ∀ b ∈ s, 48 ≤ b.toNat ∧ b.toNat ≤ 57 then
    some (s.foldl (fun n b => 10 * n + (b.toNat - 48)) 0)
  else none

theorem decimal_not_eol {n : ℕ} {b : UInt8} (hb : b ∈ decimal n) : isEol b = false := by
  have hdigit := decimal_digit hb
  have hcr : b ≠ cr := by
    rintro rfl
    exact absurd hdigit.1 (by decide)
  have hlf : b ≠ lf := by
    rintro rfl
    exact absurd hdigit.1 (by decide)
  simp [isEol, hcr, hlf]

/-- **The digits of a number are read back as the number.** -/
theorem parseDecimal_decimal (n : ℕ) : parseDecimal (decimal n) = some n := by
  have hne : decimal n ≠ [] := by
    simp [decimal, Nat.toDigits_ne_nil]
  have hdigits : ∀ b ∈ decimal n, 48 ≤ b.toNat ∧ b.toNat ≤ 57 := fun b hb => decimal_digit hb
  rw [parseDecimal, if_pos ⟨hne, hdigits⟩, decimal, List.foldl_map]
  have hfold : ∀ (cs : List Char) (k : ℕ), (∀ c ∈ cs, c.toNat ≤ 57) →
      cs.foldl (fun k c => 10 * k + (c.toNat.toUInt8.toNat - 48)) k = Nat.ofDigitChars 10 cs k := by
    intro cs
    induction cs with
    | nil => simp
    | cons c cs ih =>
      intro k hcs
      have hc : c.toNat ≤ 57 := hcs c List.mem_cons_self
      have hbyte : c.toNat.toUInt8.toNat = c.toNat := by
        simp only [Nat.toUInt8_eq, UInt8.toNat_ofNat']
        omega
      rw [List.foldl_cons, ih _ fun c hc => hcs c (List.mem_cons_of_mem _ hc), hbyte,
        Nat.ofDigitChars_cons]
      rfl
  rw [hfold _ 0 fun c hc => (toDigits_range hc).2, Nat.ofDigitChars_ten_toDigits]

/-! ## The version -/

/-- A scan takes no stop. -/
theorem scanLoop_not_stop (buff : ℕ → UInt8) (readLength : ℕ) (stop : UInt8 → Bool) (fuel i : ℕ)
    (temp : Bytes) (htemp : ∀ b ∈ temp, stop b = false) :
    ∀ b ∈ (scanLoop buff readLength stop fuel i temp).1, stop b = false := by
  induction fuel generalizing i temp with
  | zero => exact htemp
  | succ fuel ih =>
    unfold scanLoop
    split
    · rename_i hi
      refine ih (i + 1) _ fun b hb => ?_
      rcases List.mem_append.mp hb with hb | hb
      · exact htemp b hb
      · rw [List.mem_singleton.mp hb]
        exact hi.2
    · exact htemp

theorem headLoop_version (buff : ℕ → UInt8) (readLength fuel i : ℕ) (recvHttp : HttpHandle) :
    (headLoop buff readLength fuel i recvHttp).1.version = recvHttp.version := by
  induction fuel generalizing i recvHttp with
  | zero => rfl
  | succ fuel ih =>
    unfold headLoop
    split
    · exact ih _ _
    · rfl

/-- **The version has no line end**, whatever was received. -/
theorem version_not_eol (buff : ℕ → UInt8) (readLength : ℕ) :
    ∀ b ∈ (parse buff readLength).1.version, isEol b = false := by
  simp only [parse, handleRequestHead, headLoop_version, handleRequestLine]
  exact scanLoop_not_stop _ _ _ _ _ _ (List.forall_mem_nil _)

/-! ## The lines of a response -/

/-- The four lines of a head. -/
def responseLines (version status contentType body : Bytes) : List Bytes :=
  [version ++ status, str "Connection: Keep-Alive", contentType,
    str "Content-Length: " ++ decimal body.length]

theorem responseHead_eq {status contentType : String} {statusText typeText : Bytes}
    (hs : str status = statusText ++ [cr, lf]) (ht : str contentType = typeText ++ [cr, lf])
    (version body : Bytes) :
    responseHead version status contentType body =
      Lines.render cr lf (responseLines version statusText typeText body) ++ [cr, lf] := by
  have hc : str "Connection: Keep-Alive\r\n" = str "Connection: Keep-Alive" ++ [cr, lf] := by decide
  have hend : str "\r\n" = [cr, lf] := by decide
  simp [responseHead, responseLines, hs, ht, hc, hend]

/-- The texts of the status and of the type are one of two each. -/
def StatusText (s : Bytes) : Prop := s = str " 200 OK" ∨ s = str " 404 NOTFOUND"

@[inherit_doc StatusText]
def TypeText (s : Bytes) : Prop :=
  s = str "Content-type: text/html" ∨ s = str "Content-Type: text/html"

theorem handleHttp_lines {env : Env} {chunk : Bytes} {r : Reply}
    (h : handleHttp env chunk = some r) :
    ∃ status contentType, StatusText status ∧ TypeText contentType ∧
      r.head = Lines.render cr lf
        (responseLines (parseChunk chunk).version status contentType r.body) ++ [cr, lf] := by
  have hok : str " 200 OK\r\n" = str " 200 OK" ++ [cr, lf] := by decide
  have hnf : str " 404 NOTFOUND\r\n" = str " 404 NOTFOUND" ++ [cr, lf] := by decide
  have hct : str "Content-type: text/html\r\n" = str "Content-type: text/html" ++ [cr, lf] := by
    decide
  have hcT : str "Content-Type: text/html\r\n" = str "Content-Type: text/html" ++ [cr, lf] := by
    decide
  obtain ⟨-, hhead, -⟩ | ⟨-, -, hhead, -⟩ | ⟨-, -, -, hhead⟩ | ⟨-, -, -, -, hhead⟩ :=
    handleHttp_cases h
  · exact ⟨_, _, .inl rfl, .inl rfl, hhead.trans (responseHead_eq hok hct _ _)⟩
  · exact ⟨_, _, .inl rfl, .inr rfl, hhead.trans (responseHead_eq hok hcT _ _)⟩
  · exact ⟨_, _, .inl rfl, .inr rfl, hhead.trans (responseHead_eq hok hcT _ _)⟩
  · exact ⟨_, _, .inr rfl, .inr rfl, hhead.trans (responseHead_eq hnf hcT _ _)⟩

theorem isLine_of_not_eol {s : Bytes} (hne : s ≠ []) (hs : ∀ b ∈ s, isEol b = false) :
    Lines.IsLine cr lf s :=
  ⟨hne, fun h => absurd (hs cr h) (by decide), fun h => absurd (hs lf h) (by decide)⟩

section ResponseLines

variable {version status contentType : Bytes}

/-- No line of a head has a byte of a line end in it, whatever the client sent. -/
theorem responseLines_not_eol (hv : ∀ b ∈ version, isEol b = false) (hs : StatusText status)
    (ht : TypeText contentType) (body : Bytes) :
    ∀ line ∈ responseLines version status contentType body, ∀ b ∈ line, isEol b = false := by
  have hstatus : ∀ b ∈ status, isEol b = false := by
    rcases hs with rfl | rfl <;> decide
  have htype : ∀ b ∈ contentType, isEol b = false := by
    rcases ht with rfl | rfl <;> decide
  have hconn : ∀ b ∈ str "Connection: Keep-Alive", isEol b = false := by decide
  have hlen : ∀ b ∈ str "Content-Length: ", isEol b = false := by decide
  intro line hline b hb
  simp only [responseLines, List.mem_cons, List.not_mem_nil, or_false] at hline
  rcases hline with rfl | rfl | rfl | rfl
  · exact (List.mem_append.mp hb).elim (hv b) (hstatus b)
  · exact hconn b hb
  · exact htype b hb
  · exact (List.mem_append.mp hb).elim (hlen b) decimal_not_eol

theorem responseLines_isLine (hv : ∀ b ∈ version, isEol b = false) (hs : StatusText status)
    (ht : TypeText contentType) (body : Bytes) :
    ∀ line ∈ responseLines version status contentType body, Lines.IsLine cr lf line := by
  intro line hline
  refine isLine_of_not_eol ?_ (responseLines_not_eol hv hs ht body line hline)
  have hstatus : status ≠ [] := by
    rcases hs with rfl | rfl <;> decide
  have htype : contentType ≠ [] := by
    rcases ht with rfl | rfl <;> decide
  have hconn : str "Connection: Keep-Alive" ≠ [] := by decide
  have hlen : str "Content-Length: " ≠ [] := by decide
  simp only [responseLines, List.mem_cons, List.not_mem_nil, or_false] at hline
  rcases hline with rfl | rfl | rfl | rfl
  · exact List.append_ne_nil_of_right_ne_nil _ hstatus
  · exact hconn
  · exact htype
  · exact List.append_ne_nil_of_left_ne_nil hlen _

end ResponseLines

/-- **Responses are well framed**, for every buffer and every outcome of the system calls. The head
is four lines and a blank line, none of them with a line end in it; the first blank line of the
response ends the head; and the number in `Content-Length` is the number of bytes of the body. -/
theorem response_well_framed (env : Env) (buff : ℕ → UInt8) (readLength : ℕ) (r : Reply)
    (h : respond env (parse buff readLength).1 = some r) :
    ∃ status contentType digits : Bytes, StatusText status ∧ TypeText contentType ∧
      let lines := [(parse buff readLength).1.version ++ status, str "Connection: Keep-Alive",
        contentType, str "Content-Length: " ++ digits]
      r.head = Lines.render cr lf lines ++ [cr, lf] ∧
        (∀ line ∈ lines, ∀ b ∈ line, isEol b = false) ∧
        Lines.FirstAt [cr, lf, cr, lf] (r.head.length - 4) (r.head ++ r.body) ∧
        parseDecimal digits = some r.body.length := by
  have hv := version_not_eol buff readLength
  rw [parse_eq_parseChunk] at h hv ⊢
  obtain ⟨status, contentType, hs, ht, hhead⟩ := handleHttp_lines h
  exact ⟨status, contentType, decimal r.body.length, hs, ht, hhead,
    responseLines_not_eol hv hs ht r.body,
    Lines.firstAt_head (by decide) (List.cons_ne_nil _ _) (responseLines_isLine hv hs ht r.body)
      hhead r.body,
    parseDecimal_decimal _⟩

/-- A request whose first line is cut by a bare line feed, in front of a header. -/
def injecting : Bytes := str "GET /hello HTTP/1.1\nX: 1\r\n\r\n"

theorem response_well_framed_injecting :
    (parse (readBuff injecting) injecting.length).1.version = str "HTTP/1.1" ∧
      ∃ r, respond emptyEnv (parse (readBuff injecting) injecting.length).1 = some r ∧
        Lines.FirstAt [cr, lf, cr, lf] (r.head.length - 4) (r.head ++ r.body) ∧
        ∃ digits, parseDecimal digits = some r.body.length := by
  have huri : (parseChunk injecting).uri = str "/hello" := by decide +kernel
  have hr := handleHttp_hello emptyEnv huri
  obtain ⟨-, -, digits, -, -, -, -, hfirst, hdigits⟩ :=
    response_well_framed emptyEnv (readBuff injecting) injecting.length _ hr
  exact ⟨by decide +kernel, _, hr, hfirst, digits, hdigits⟩

end WebServer.Http
