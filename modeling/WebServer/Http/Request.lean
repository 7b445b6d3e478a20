import Mathlib.Data.List.Basic
import Mathlib.Data.List.TakeWhile
import Mathlib.Logic.Function.Basic

/-!
# Parsing a request

`Httpdata::handle_request_line` and `handle_request_head` walk over `read_buff` with an index, up to
`read_length`. The buffer is a function from indices to bytes, so that a read past the received
bytes would have a value like any other; the loops only look at an index after comparing it with
`read_length`.

The loops are given as many turns as there are bytes left; the module on the received bytes shows
that they need no more.

`parse_render` is the round trip: a rendered request, followed by anything, parses to its own parts.
-/

namespace WebServer.Http

/-- A C++ `string`. -/
abbrev Bytes := List UInt8

/-- The bytes of a string literal of the source, which is in UTF-8. -/
def str (s : String) : Bytes := s.toUTF8.data.toList

/-- The characters the parser looks for. -/
def space : UInt8 := 32

@[inherit_doc space] def colon : UInt8 := 58

@[inherit_doc space] def cr : UInt8 := 13

@[inherit_doc space] def lf : UInt8 := 10

/-- What is said of all bytes of a string is checked on these, not on all values of a byte. -/
instance Bytes.decidableForallMem (p : UInt8 → Prop) [DecidablePred p] (w : Bytes) :
    Decidable (∀ b ∈ w, p b) :=
  List.decidableBAll p w

@[inherit_doc Bytes.decidableForallMem]
instance Bytes.decidableForallMemOption (p : UInt8 → Prop) [DecidablePred p] (b? : Option UInt8) :
    Decidable (∀ b ∈ b?, p b) :=
  Option.decidableForallMem b?

/-- `Http_Handle`. -/
structure HttpHandle where
  req : Bytes
  uri : Bytes
  version : Bytes
  requestHead : Bytes → Option Bytes

/-- A new `Http_Handle`. -/
def HttpHandle.empty : HttpHandle := ⟨[], [], [], fun _ => none⟩

/-! ## The parser -/

section Parser

variable (buff : ℕ → UInt8) (readLength : ℕ)

/-- The loop `while(index < read_length && buff[index] is no stop)`, with the body
`temp += buff[index]; index++;`, for at most `fuel` turns. -/
def scanLoop (stop : UInt8 → Bool) : ℕ → ℕ → Bytes → Bytes × ℕ
  | 0, index, temp => (temp, index)
  | fuel + 1, index, temp =>
    if index < readLength ∧ stop (buff index) = false then
      scanLoop stop fuel (index + 1) (temp ++ [buff index])
    else (temp, index)

/-- The loop from `index` on, with as many turns as there are bytes left. -/
def scan (stop : UInt8 → Bool) (index : ℕ) : Bytes × ℕ :=
  scanLoop buff readLength stop (readLength - index) index []

/-- The byte ends a word of the request line. -/
def isSpace (b : UInt8) : Bool := b == space

/-- The byte ends a line. -/
def isEol (b : UInt8) : Bool := b == cr || b == lf

/-- The byte ends a header's key. -/
def isColon (b : UInt8) : Bool := b == colon

/-- `Httpdata::handle_request_line`. -/
def handleRequestLine (index : ℕ) (recvHttp : HttpHandle) : HttpHandle × ℕ :=
  let (req, index) := scan buff readLength isSpace index
  let index := index + 1
  let (uri, index) := scan buff readLength isSpace index
  let index := index + 1
  let (version, index) := scan buff readLength isEol index
  ({ recvHttp with req := req, uri := uri, version := version }, index + 2)

/-- The outer loop of `Httpdata::handle_request_head`, for at most `fuel` turns. -/
def headLoop : ℕ → ℕ → HttpHandle → HttpHandle × ℕ
  | 0, index, recvHttp => (recvHttp, index)
  | fuel + 1, index, recvHttp =>
    if index < readLength ∧ isEol (buff index) = false then
      let (key, index) := scan buff readLength isColon index
      let index := index + 2
      let (value, index) := scan buff readLength isEol index
      let requestHead := Function.update recvHttp.requestHead key (some value)
      headLoop fuel (index + 2) { recvHttp with requestHead := requestHead }
    else (recvHttp, index)

/-- `Httpdata::handle_request_head`; every turn of its loop moves the index on. -/
def handleRequestHead (index : ℕ) (recvHttp : HttpHandle) : HttpHandle × ℕ :=
  let (recvHttp, index) := headLoop buff readLength (readLength - index) index recvHttp
  (recvHttp, index + 1)

/-- The two calls of `handle_http`. -/
def parse : HttpHandle × ℕ :=
  let (recvHttp, index) := handleRequestLine buff readLength 0 .empty
  handleRequestHead buff readLength index recvHttp

end Parser

/-- `read_buff` after `readn` received `chunk`: the buffer was zeroed before. -/
def readBuff (chunk : Bytes) : ℕ → UInt8 := fun i => chunk.getD i 0

/-- What the parser makes of the bytes received in one event. -/
def parseChunk (chunk : Bytes) : HttpHandle := (parse (readBuff chunk) chunk.length).1

/-! ## Scanning -/

section Scan

variable {chunk w rest : Bytes} {stop : UInt8 → Bool} {i : ℕ} {c : UInt8}

theorem scanLoop_eq (chunk : Bytes) (stop : UInt8 → Bool) (fuel i : ℕ) (temp : Bytes)
    (hf : chunk.length - i ≤ fuel) :
    scanLoop (readBuff chunk) chunk.length stop fuel i temp =
      (temp ++ (chunk.drop i).takeWhile (fun b => !stop b),
        i + ((chunk.drop i).takeWhile fun b => !stop b).length) := by
  induction fuel generalizing i temp with
  | zero =>
    have hlen : chunk.length ≤ i := by omega
    simp [scanLoop, List.drop_eq_nil_of_le hlen]
  | succ fuel ih =>
    unfold scanLoop
    by_cases hi : i < chunk.length
    · have hget : readBuff chunk i = chunk[i] := by simp [readBuff, hi]
      rw [List.drop_eq_getElem_cons hi, List.takeWhile_cons, hget]
      cases hstop : stop chunk[i] with
      | true => simp
      | false =>
        rw [if_pos ⟨hi, rfl⟩, ih (i + 1) _ (by omega)]
        simp [Nat.add_assoc, Nat.add_comm 1]
    · have hlen : chunk.length ≤ i := by omega
      simp [hi, List.drop_eq_nil_of_le hlen]

/-- **A scan takes the bytes up to the first stop.** -/
theorem scan_eq (chunk : Bytes) (stop : UInt8 → Bool) (i : ℕ) :
    scan (readBuff chunk) chunk.length stop i =
      ((chunk.drop i).takeWhile (fun b => !stop b),
        i + ((chunk.drop i).takeWhile fun b => !stop b).length) := by
  simpa [scan] using scanLoop_eq chunk stop (chunk.length - i) i [] le_rfl

/-- Scanning a word that is followed by a stop. -/
theorem scan_word (hchunk : chunk.drop i = w ++ c :: rest) (hw : ∀ b ∈ w, stop b = false)
    (hc : stop c = true) :
    scan (readBuff chunk) chunk.length stop i = (w, i + w.length) := by
  have htake : (chunk.drop i).takeWhile (fun b => !stop b) = w := by
    rw [hchunk, List.takeWhile_append_of_pos (by simpa using hw)]
    simp [hc]
  rw [scan_eq, htake]

/-- Scanning a word that ends with the received bytes. -/
theorem scan_rest (hchunk : chunk.drop i = w) (hw : ∀ b ∈ w, stop b = false) :
    scan (readBuff chunk) chunk.length stop i = (w, i + w.length) := by
  have htake : (chunk.drop i).takeWhile (fun b => !stop b) = w := by
    rw [hchunk, List.takeWhile_eq_self_iff]
    simpa using hw
  rw [scan_eq, htake]

theorem drop_word (hchunk : chunk.drop i = w ++ rest) : chunk.drop (i + w.length) = rest := by
  rw [← List.drop_drop, hchunk, List.drop_left]

/-- The index behind a word and its stop. -/
theorem drop_word_cons (hchunk : chunk.drop i = w ++ c :: rest) :
    chunk.drop (i + w.length + 1) = rest := by
  rw [← List.drop_drop, drop_word hchunk]
  rfl

/-- The index behind a word and the two bytes after it. -/
theorem drop_word_cons_cons {c' : UInt8} (hchunk : chunk.drop i = w ++ c :: c' :: rest) :
    chunk.drop (i + w.length + 2) = rest := by
  rw [← List.drop_drop, drop_word hchunk]
  rfl

end Scan

/-! ## What the parser reads -/

section Congr

variable {buff buff' : ℕ → UInt8} {readLength : ℕ}

theorem scanLoop_congr (h : ∀ i < readLength, buff i = buff' i) (stop : UInt8 → Bool) (fuel i : ℕ)
    (temp : Bytes) :
    scanLoop buff readLength stop fuel i temp = scanLoop buff' readLength stop fuel i temp := by
  induction fuel generalizing i temp with
  | zero => rfl
  | succ fuel ih =>
    by_cases hi : i < readLength
    · simp only [scanLoop, h i hi, ih]
    · simp only [scanLoop, hi, false_and, if_false]

theorem headLoop_congr (h : ∀ i < readLength, buff i = buff' i) (fuel i : ℕ)
    (recvHttp : HttpHandle) :
    headLoop buff readLength fuel i recvHttp = headLoop buff' readLength fuel i recvHttp := by
  induction fuel generalizing i recvHttp with
  | zero => rfl
  | succ fuel ih =>
    by_cases hi : i < readLength
    · simp only [headLoop, scan, h i hi, scanLoop_congr h, ih]
    · simp only [headLoop, hi, false_and, if_false]

/-- **The parser reads nothing behind the received bytes.** -/
theorem parse_congr (h : ∀ i < readLength, buff i = buff' i) :
    parse buff readLength = parse buff' readLength := by
  simp only [parse, handleRequestLine, handleRequestHead, scan, scanLoop_congr h, headLoop_congr h]

/-- The received bytes of a buffer. -/
def received (buff : ℕ → UInt8) (readLength : ℕ) : Bytes := (List.range readLength).map buff

@[simp] theorem length_received : (received buff readLength).length = readLength := by
  simp [received]

theorem readBuff_received {i : ℕ} (hi : i < readLength) :
    readBuff (received buff readLength) i = buff i := by
  simp [readBuff, received, hi]

/-- Only the received bytes matter. -/
theorem parse_eq_parseChunk (buff : ℕ → UInt8) (readLength : ℕ) :
    (parse buff readLength).1 = parseChunk (received buff readLength) := by
  rw [parseChunk, length_received, parse_congr fun i hi => (readBuff_received hi).symm]

end Congr

/-! ## Rendering -/

/-- A request without a body. -/
structure Request where
  method : Bytes
  uri : Bytes
  version : Bytes
  headers : List (Bytes × Bytes)

/-- The request is one the parser can take apart: no space in method and URI, no line end in version
and values, no colon in a key and no line end at its start. -/
structure Request.Wf (r : Request) : Prop where
  method : ∀ b ∈ r.method, isSpace b = false
  uri : ∀ b ∈ r.uri, isSpace b = false
  version : ∀ b ∈ r.version, isEol b = false
  key : ∀ h ∈ r.headers, ∀ b ∈ h.1, isColon b = false
  key_head : ∀ h ∈ r.headers, ∀ b ∈ h.1.head?, isEol b = false
  value : ∀ h ∈ r.headers, ∀ b ∈ h.2, isEol b = false

/-- A header line. -/
def renderHeader (h : Bytes × Bytes) : Bytes := h.1 ++ colon :: space :: (h.2 ++ [cr, lf])

/-- The bytes of a request. -/
def Request.render (r : Request) : Bytes :=
  r.method ++ space :: (r.uri ++ space :: (r.version ++ cr :: lf ::
    (r.headers.flatMap renderHeader ++ [cr, lf])))

/-- The map of the headers: for repeated keys the last value wins. -/
def headerMap (requestHead : Bytes → Option Bytes) (headers : List (Bytes × Bytes)) :
    Bytes → Option Bytes :=
  headers.foldl (fun m h => Function.update m h.1 (some h.2)) requestHead

section RoundTrip

variable {chunk rest : Bytes} {i : ℕ}

theorem head?_drop_eq_readBuff (hi : i < chunk.length) :
    (chunk.drop i).head? = some (readBuff chunk i) := by
  simp [readBuff, List.head?_drop, hi]

/-- The loop over the headers ends at a line end and at the end of the received bytes. -/
theorem headLoop_stop (hstop : ∀ b ∈ (chunk.drop i).head?, isEol b = true) (fuel : ℕ)
    (recvHttp : HttpHandle) :
    headLoop (readBuff chunk) chunk.length fuel i recvHttp = (recvHttp, i) := by
  cases fuel with
  | zero => rfl
  | succ fuel =>
    have hexit : ¬ (i < chunk.length ∧ isEol (readBuff chunk i) = false) := by
      rintro ⟨hi, hfalse⟩
      rw [hstop _ (head?_drop_eq_readBuff hi)] at hfalse
      cases hfalse
    rw [headLoop, if_neg hexit]

/-- **One turn of the loop over the headers**: the bytes up to a colon, two bytes that are skipped
whatever they are, the bytes up to a line end, and again two bytes that are skipped. -/
theorem headLoop_turn {key value : Bytes} {c e : UInt8} (fuel : ℕ) (recvHttp : HttpHandle)
    (hchunk : chunk.drop i = key ++ colon :: c :: (value ++ e :: rest))
    (hkey : ∀ b ∈ key, isColon b = false) (hhead : ∀ b ∈ key.head?, isEol b = false)
    (hvalue : ∀ b ∈ value, isEol b = false) (he : isEol e = true) :
    headLoop (readBuff chunk) chunk.length (fuel + 1) i recvHttp =
      headLoop (readBuff chunk) chunk.length fuel (i + key.length + 2 + value.length + 2)
        { recvHttp with
          requestHead := Function.update recvHttp.requestHead key (some value) } := by
  have hpos : i < chunk.length := by
    have hlen := congrArg List.length hchunk
    simp only [List.length_drop, List.length_append, List.length_cons] at hlen
    omega
  have hfirst : isEol (readBuff chunk i) = false := by
    have h0 := head?_drop_eq_readBuff hpos
    rw [hchunk] at h0
    cases key with
    | nil =>
      have hb : colon = readBuff chunk i := by simpa using h0
      rw [← hb]
      rfl
    | cons b key =>
      have hb : b = readBuff chunk i := by simpa using h0
      rw [← hb]
      exact hhead b rfl
  have hscan1 := scan_word hchunk hkey rfl
  have hscan2 := scan_word (drop_word_cons_cons hchunk) hvalue he
  simp only [headLoop, if_pos (And.intro hpos hfirst), hscan1, hscan2]

/-- The loop over the headers takes rendered header lines apart. -/
theorem headLoop_render (headers : List (Bytes × Bytes)) (fuel i : ℕ) (recvHttp : HttpHandle)
    {e : UInt8} (he : isEol e = true)
    (hchunk : chunk.drop i = headers.flatMap renderHeader ++ e :: rest)
    (hf : chunk.length - i ≤ fuel)
    (hkey : ∀ h ∈ headers, ∀ b ∈ h.1, isColon b = false)
    (hhead : ∀ h ∈ headers, ∀ b ∈ h.1.head?, isEol b = false)
    (hvalue : ∀ h ∈ headers, ∀ b ∈ h.2, isEol b = false) :
    (headLoop (readBuff chunk) chunk.length fuel i recvHttp).1 =
      { recvHttp with requestHead := headerMap recvHttp.requestHead headers } := by
  induction headers generalizing fuel i recvHttp with
  | nil =>
    rw [headLoop_stop]
    · rfl
    · intro b hb
      rw [hchunk] at hb
      obtain rfl : e = b := Option.some.inj hb
      exact he
  | cons h headers ih =>
    obtain ⟨key, value⟩ := h
    -- the first header line, and where the next one begins
    have h1 : chunk.drop i = key ++ colon :: space :: (value ++ cr :: (lf ::
        (headers.flatMap renderHeader ++ e :: rest))) := by
      simpa [renderHeader] using hchunk
    have h2 : chunk.drop (i + key.length + 2 + value.length + 2) =
        headers.flatMap renderHeader ++ e :: rest :=
      drop_word_cons_cons (drop_word_cons_cons h1)
    have hpos : i < chunk.length := by
      have hlen := congrArg List.length h1
      simp only [List.length_drop, List.length_append, List.length_cons] at hlen
      omega
    obtain ⟨fuel, rfl⟩ : ∃ k, fuel = k + 1 := ⟨fuel - 1, by omega⟩
    rw [headLoop_turn fuel recvHttp h1 (hkey _ (List.mem_cons_self ..))
      (hhead _ (List.mem_cons_self ..)) (hvalue _ (List.mem_cons_self ..)) rfl]
    rw [ih fuel _ _ h2 (by omega) (fun h hh => hkey h (List.mem_cons_of_mem _ hh))
      (fun h hh => hhead h (List.mem_cons_of_mem _ hh))
      (fun h hh => hvalue h (List.mem_cons_of_mem _ hh))]
    rfl

/-- **Parsing undoes rendering**, whatever follows the request. -/
theorem parse_render {r : Request} (h : r.Wf) (rest : Bytes) :
    parseChunk (r.render ++ rest) =
      ⟨r.method, r.uri, r.version, headerMap (fun _ => none) r.headers⟩ := by
  obtain ⟨chunk, hdef⟩ : ∃ chunk, chunk = r.render ++ rest := ⟨_, rfl⟩
  have h1 : chunk.drop 0 = r.method ++ space :: (r.uri ++ space :: (r.version ++ cr :: (lf ::
      (r.headers.flatMap renderHeader ++ cr :: (lf :: rest))))) := by
    simp [hdef, Request.render]
  have h2 : chunk.drop (0 + r.method.length + 1) = r.uri ++ space :: (r.version ++ cr :: (lf ::
      (r.headers.flatMap renderHeader ++ cr :: (lf :: rest)))) :=
    drop_word_cons h1
  have h3 : chunk.drop (0 + r.method.length + 1 + r.uri.length + 1) = r.version ++ cr :: (lf ::
      (r.headers.flatMap renderHeader ++ cr :: (lf :: rest))) :=
    drop_word_cons h2
  have h4 : chunk.drop (0 + r.method.length + 1 + r.uri.length + 1 + r.version.length + 2) =
      r.headers.flatMap renderHeader ++ cr :: (lf :: rest) :=
    drop_word_cons_cons h3
  have hs1 := scan_word h1 h.method rfl
  have hs2 := scan_word h2 h.uri rfl
  have hs3 := scan_word h3 h.version rfl
  rw [← hdef]
  simp only [parseChunk, parse, handleRequestLine, hs1, hs2, hs3, handleRequestHead]
  rw [headLoop_render r.headers _ _ _ rfl h4 le_rfl h.key h.key_head h.value]
  rfl

/-- A buffer that holds some bytes and of which more were received. -/
theorem received_eq_append {buff : ℕ → UInt8} {readLength : ℕ} {bytes : Bytes}
    (hbuff : ∀ i (hi : i < bytes.length), buff i = bytes[i]) (hlen : bytes.length ≤ readLength) :
    ∃ rest, received buff readLength = bytes ++ rest := by
  refine ⟨(received buff readLength).drop bytes.length, ?_⟩
  have htake : (received buff readLength).take bytes.length = bytes := by
    refine List.ext_getElem ?_ fun i h₁ h₂ => ?_
    · rw [List.length_take, length_received, Nat.min_eq_left hlen]
    · simp [received, hbuff i h₂]
  conv_lhs => rw [← List.take_append_drop bytes.length (received buff readLength), htake]

/-- **Parsing undoes rendering**, in a buffer that holds a canonical request and then anything. -/
theorem parse_canonical (r : Request) (h : r.Wf) (buff : ℕ → UInt8) (readLength : ℕ)
    (hbuff : ∀ i (hi : i < r.render.length), buff i = r.render[i])
    (hlen : r.render.length ≤ readLength) :
    (parse buff readLength).1 =
      ⟨r.method, r.uri, r.version, headerMap (fun _ => none) r.headers⟩ := by
  obtain ⟨rest, hrest⟩ := received_eq_append hbuff hlen
  rw [parse_eq_parseChunk, hrest, parse_render h]

/-- A request with an empty URI, an empty value and a repeated key. -/
def oddRequest : Request := ⟨str "GET", [], str "HTTP/1.1", [(str "A", []), (str "B", str "x"),
  (str "A", str "y: z")]⟩

theorem oddRequest_wf : oddRequest.Wf := by
  constructor <;> decide

/-- In a buffer full of line ends behind the request, all of which were received. -/
theorem parse_canonical_odd :
    (parse (fun i => oddRequest.render.getD i lf) 4096).1 =
      ⟨str "GET", [], str "HTTP/1.1", headerMap (fun _ => none) oddRequest.headers⟩ ∧
    headerMap (fun _ => none) oddRequest.headers (str "A") = some (str "y: z") := by
  refine ⟨parse_canonical oddRequest oddRequest_wf _ 4096 ?_ (by decide), by decide⟩
  intro i hi
  simp [hi]

/-- A request line without an end: the rest is the version. -/
theorem parseChunk_unterminated {method uri version : Bytes}
    (hm : ∀ b ∈ method, isSpace b = false) (hu : ∀ b ∈ uri, isSpace b = false)
    (hv : ∀ b ∈ version, isEol b = false) :
    parseChunk (method ++ space :: (uri ++ space :: version)) =
      ⟨method, uri, version, fun _ => none⟩ := by
  obtain ⟨chunk, hdef⟩ : ∃ chunk, chunk = method ++ space :: (uri ++ space :: version) := ⟨_, rfl⟩
  have h1 : chunk.drop 0 = method ++ space :: (uri ++ space :: version) := by simp [hdef]
  have h2 : chunk.drop (0 + method.length + 1) = uri ++ space :: version :=
    drop_word_cons h1
  have h3 : chunk.drop (0 + method.length + 1 + uri.length + 1) = version :=
    drop_word_cons h2
  have hs1 := scan_word h1 hm rfl
  have hs2 := scan_word h2 hu rfl
  have hs3 := scan_rest h3 hv
  have hend : chunk.length - (0 + method.length + 1 + uri.length + 1 + version.length + 2) = 0 := by
    simp only [hdef, List.length_append, List.length_cons]
    omega
  rw [← hdef]
  simp only [parseChunk, parse, handleRequestLine, hs1, hs2, hs3, handleRequestHead, hend, headLoop]
  rfl

end RoundTrip

end WebServer.Http
