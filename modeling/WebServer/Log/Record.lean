import WebServer.Http.Stream
import WebServer.Lib.Greedy
import WebServer.Queue.LogFile

/-!
# Log records

`LOG << ...` makes a `Log`, whose constructor puts the time into a `LogMessage` and whose destructor
puts the place of the call and hands the message to `put_write_string`. A `LogMessage` is an array
of 2048 bytes; `Append` drops a piece that does not fit whole. `write_file` writes the bytes up to
the first NUL.

`record_wholeLine_iff`: a record is one whole line when the pieces of the payload that fit have
neither a newline nor a NUL, and the trailer fits behind them. For payloads without the bracket that
a trailer begins with, this is also necessary; other payloads may imitate a trailer.

`operator<<(int)` reads the characters of a `std::string` that has been destroyed. What is found in
its place is a parameter of the model. The lengths of the pieces have no bound here. The module on
messages has the counters of a `LogMessage` as the `int` they are, and its array with every store
checked: as long as no piece is within 2048 bytes of the largest `int`, the array they leave is that
of the record here (`record_of_run`).
-/

namespace WebServer.Log

open Http (Bytes str cStr decimal bytesAt lf parseChunk)
open Lib

/-! ## Messages -/

/-- `max_length`. -/
def maxLength : ℕ := 2048

/-- A `LogMessage`. -/
structure LogMessage where
  cur : ℕ
  length : ℕ
  message : ℕ → UInt8

/-- A new message; the array is not initialised. -/
def LogMessage.new (memory : ℕ → UInt8) : LogMessage := ⟨0, 0, memory⟩

/-- `Append` of the bytes at a pointer, `none` being the null pointer. The lengths have no bound
here; where their sum is an `int`, it is the checked `Append` (`append_represents`). -/
def LogMessage.append (m : LogMessage) (buff : Option Bytes) : LogMessage :=
  match buff with
  | none => m
  | some bytes =>
    if bytes.length + m.length ≥ maxLength then m
    else
      { cur := m.cur + bytes.length
        length := m.length + bytes.length
        -- the bytes, and a NUL behind them
        message := fun i =>
          if m.cur ≤ i ∧ i ≤ m.cur + bytes.length then bytes.getD (i - m.cur) 0
          else m.message i }

/-- `to_string` of an `int`. -/
def decimalInt (n : ℤ) : Bytes := if n < 0 then 45 :: decimal n.natAbs else decimal n.natAbs

/-- What is put into a message, by the three operators. -/
inductive Piece
  | cString (s : Bytes)
  | int (n : ℤ)
  | string (s : Bytes)

/-- The bytes appended: a C string is read up to its NUL, and so is what is found in the place of
the destroyed string. -/
def Piece.bytes (stale : Bytes → Bytes) : Piece → Bytes
  | .cString s => cStr s
  | .int n => cStr (stale (decimalInt n))
  | .string s => s

/-- `operator<<`. -/
def LogMessage.put (stale : Bytes → Bytes) (m : LogMessage) (piece : Piece) : LogMessage :=
  m.append (some (piece.bytes stale))

/-- A message that holds a text, with the NUL behind it. -/
structure Contains (m : LogMessage) (text : Bytes) : Prop where
  cur_eq : m.cur = text.length
  length_eq : m.length = text.length
  length_lt : text.length < maxLength
  bytes : bytesAt m.message 0 text.length = text
  nul : m.message text.length = 0

/-- `Append` of a piece that fits. -/
theorem append_contains {m : LogMessage} {text bytes : Bytes} (hcur : m.cur = text.length)
    (hlength : m.length = text.length) (htext : bytesAt m.message 0 text.length = text)
    (hfit : bytes.length + text.length < maxLength) :
    Contains (m.append (some bytes)) (text ++ bytes) := by
  have hbranch : ¬bytes.length + m.length ≥ maxLength := by omega
  simp only [LogMessage.append, if_neg hbranch]
  refine ⟨by simp [hcur], by simp [hlength], by simp; omega, ?_, ?_⟩
  · apply List.ext_getElem (by simp [bytesAt])
    intro i hi _
    have hi' : i < text.length + bytes.length := by simpa [bytesAt] using hi
    by_cases hold : i < text.length
    · have hget : m.message i = text[i] := by
        have h := congrArg (fun l : Bytes => l[i]?) htext
        simpa [bytesAt, hold] using h
      have hnot : ¬(text.length ≤ i ∧ i ≤ text.length + bytes.length) := by omega
      simp [bytesAt, hcur, hnot, hget, List.getElem_append_left hold]
    · have hnew : text.length ≤ i ∧ i ≤ text.length + bytes.length := by omega
      have hlt : i - text.length < bytes.length := by omega
      simp [bytesAt, hcur, hnew, hlt, List.getElem_append_right (by omega : text.length ≤ i)]
  · simp [hcur]

theorem append_eq_self {m : LogMessage} {text bytes : Bytes} (h : Contains m text)
    (hfit : maxLength ≤ bytes.length + text.length) : m.append (some bytes) = m := by
  have hbranch : bytes.length + m.length ≥ maxLength := by rw [h.length_eq]; exact hfit
  simp only [LogMessage.append, if_pos hbranch]

/-- **What a message holds** after some pieces: those that fitted when they came. -/
theorem foldl_put_contains (stale : Bytes → Bytes) {m : LogMessage} {text : Bytes}
    (pieces : List Piece) (h : Contains m text) :
    Contains (pieces.foldl (LogMessage.put stale) m)
      (text ++ (taken maxLength text.length (pieces.map (Piece.bytes stale))).flatten) := by
  induction pieces generalizing m text with
  | nil => simpa [taken] using h
  | cons piece pieces ih =>
    rw [List.foldl_cons, List.map_cons, LogMessage.put]
    rcases Nat.lt_or_ge ((piece.bytes stale).length + text.length) maxLength with hfit | hfit
    · have hpiece := append_contains h.cur_eq h.length_eq h.bytes hfit
      rw [taken_cons_of_lt hfit, List.flatten_cons, ← List.append_assoc, ← List.length_append]
      exact ih hpiece
    · rw [append_eq_self h hfit, taken_cons_of_le hfit]
      exact ih h

/-! ## Records -/

/-- What `localtime` returns. -/
structure Tm where
  year : ℕ
  mon : ℕ
  mday : ℕ
  hour : ℕ
  min : ℕ
  sec : ℕ
  year_lt : year + 1900 < 10 ^ 10
  mon_lt : mon < 12
  mday_le : mday ≤ 31
  hour_lt : hour < 24
  min_lt : min < 60
  sec_le : sec ≤ 60

/-- A number with at least `width` digits: `%04d` and `%02d`. -/
def pad (width n : ℕ) : Bytes :=
  List.replicate (width - (decimal n).length) 48 ++ decimal n

/-- `GetSystemTime`. -/
def getSystemTime (tm : Tm) : Bytes :=
  91 :: (pad 4 (tm.year + 1900) ++ str "-" ++ pad 2 (tm.mon + 1) ++ str "-" ++ pad 2 tm.mday ++
    str " " ++ pad 2 tm.hour ++ str ":" ++ pad 2 tm.min ++ str ":" ++ pad 2 tm.sec ++ str "]")

/-- A character that neither ends a record nor begins a trailer. -/
def Plain (b : UInt8) : Prop := b ≠ 0 ∧ b ≠ lf ∧ b ≠ 91

instance (b : UInt8) : Decidable (Plain b) := inferInstanceAs (Decidable (_ ∧ _))

/-- The place of a `LOG`: `__FILE__` and `__LINE__`. The name of a source file has no NUL, no
newline and no bracket. -/
structure Site where
  filename : Bytes
  line : ℕ
  plain : ∀ b ∈ filename, Plain b

/-- What `~Log` puts. -/
def trailerPieces (site : Site) : List Piece :=
  [.cString (str "     [FileName:"), .string site.filename, .cString (str " "),
    .cString (str "Line:"), .int site.line, .cString (str "]\n")]

/-- The message of a `Log` when `~Log` hands it on. -/
def logMessage (memory : ℕ → UInt8) (stale : Bytes → Bytes) (tm : Tm) (site : Site)
    (payload : List Piece) : LogMessage :=
  (payload ++ trailerPieces site).foldl (LogMessage.put stale)
    ((LogMessage.new memory).put stale (.string (getSystemTime tm)))

/-- The text of a message: the time, the pieces of the payload that fit, and those of the trailer
that fit behind them. -/
def logText (stale : Bytes → Bytes) (tm : Tm) (site : Site) (payload : List Piece) : Bytes :=
  getSystemTime tm ++ (taken maxLength (getSystemTime tm).length
    ((payload ++ trailerPieces site).map (Piece.bytes stale))).flatten

theorem length_pad_le {width n k : ℕ} (hw : width ≤ k) (hk : 0 < k) (h : n < 10 ^ k) :
    (pad width n).length ≤ k := by
  have hdigits : (decimal n).length ≤ k := by
    rw [decimal, List.length_map]
    exact (Nat.length_toDigits_le_iff (by decide) hk).mpr h
  rw [pad, List.length_append, List.length_replicate]
  omega

/-- The time fits. -/
theorem length_getSystemTime_lt (tm : Tm) : (getSystemTime tm).length < maxLength := by
  have h4 : (pad 4 (tm.year + 1900)).length ≤ 10 :=
    length_pad_le (by decide) (by decide) tm.year_lt
  have h2 : ∀ {n : ℕ}, n < 100 → (pad 2 n).length ≤ 2 := fun h =>
    length_pad_le le_rfl (by decide) h
  have hmon := h2 (n := tm.mon + 1) (by have := tm.mon_lt; omega)
  have hmday := h2 (n := tm.mday) (by have := tm.mday_le; omega)
  have hhour := h2 (n := tm.hour) (by have := tm.hour_lt; omega)
  have hmin := h2 (n := tm.min) (by have := tm.min_lt; omega)
  have hsec := h2 (n := tm.sec) (by have := tm.sec_le; omega)
  have hone : (str "-").length = 1 ∧ (str " ").length = 1 ∧ (str ":").length = 1 ∧
      (str "]").length = 1 := by decide
  simp only [getSystemTime, List.length_cons, List.length_append, hone, maxLength]
  omega

theorem logMessage_contains (memory : ℕ → UInt8) (stale : Bytes → Bytes) (tm : Tm) (site : Site)
    (payload : List Piece) :
    Contains (logMessage memory stale tm site payload) (logText stale tm site payload) := by
  have hfit : (getSystemTime tm).length + ([] : Bytes).length < maxLength := by
    rw [List.length_nil, Nat.add_zero]
    exact length_getSystemTime_lt tm
  have hstart : Contains ((LogMessage.new memory).append (some (getSystemTime tm)))
      ([] ++ getSystemTime tm) := append_contains rfl rfl rfl hfit
  rw [List.nil_append] at hstart
  exact foldl_put_contains stale (payload ++ trailerPieces site) hstart

/-- The array of a message that holds a text. -/
theorem Contains.array {m : LogMessage} {text : Bytes} (h : Contains m text) :
    ∃ rest, bytesAt m.message 0 maxLength = text ++ 0 :: rest := by
  have hlt := h.length_lt
  refine ⟨bytesAt m.message (text.length + 1) (maxLength - text.length - 1), ?_⟩
  have hsplit : maxLength = text.length + (1 + (maxLength - text.length - 1)) := by omega
  have hone : bytesAt m.message text.length 1 = [0] := by
    simp [bytesAt, h.nul]
  conv_lhs => rw [hsplit, Http.bytesAt_add, h.bytes, Http.bytesAt_add, Nat.zero_add, hone]
  rfl

/-- What is behind the first NUL is not read. -/
theorem cStr_append_nul (s rest : Bytes) : cStr (s ++ 0 :: rest) = cStr s := by
  induction s with
  | nil => rfl
  | cons b s ih =>
    simp only [cStr, List.cons_append, List.takeWhile_cons] at ih ⊢
    rw [ih]

/-- The record that `~Log` hands to `put_write_string`. -/
def record (memory : ℕ → UInt8) (stale : Bytes → Bytes) (tm : Tm) (site : Site)
    (payload : List Piece) : Queue.LogFile.Record where
  buff := bytesAt (logMessage memory stale tm site payload).message 0 maxLength
  terminated := by
    obtain ⟨rest, hrest⟩ := (logMessage_contains memory stale tm site payload).array
    simp [hrest]

/-- **What `write_file` writes for a record**: the text of the message up to the first NUL, whatever
was in the array before. -/
theorem record_text (memory : ℕ → UInt8) (stale : Bytes → Bytes) (tm : Tm) (site : Site)
    (payload : List Piece) :
    (record memory stale tm site payload).text = cStr (logText stale tm site payload) := by
  obtain ⟨rest, hrest⟩ := (logMessage_contains memory stale tm site payload).array
  simp only [Queue.LogFile.Record.text, record, hrest]
  exact cStr_append_nul _ _

/-! ## Whole lines -/

/-- The trailer. -/
def trailer (site : Site) : Bytes :=
  str "[FileName:" ++ site.filename ++ str " Line:" ++ decimal site.line ++ str "]"

/-- One line, from the time to the trailer. -/
structure WholeLine (tm : Tm) (site : Site) (text : Bytes) : Prop where
  starts : getSystemTime tm <+: text
  ends : trailer site ++ [lf] <:+ text
  one : text.count lf = 1

/-- The pieces of the payload that fit when they come. -/
def accepted (stale : Bytes → Bytes) (tm : Tm) (payload : List Piece) : List Bytes :=
  taken maxLength (getSystemTime tm).length (payload.map (Piece.bytes stale))

/-- The pieces of the payload that fit have neither a newline nor a NUL, and the trailer fits behind
them, with the five blanks before it and the newline. -/
structure Clean (stale : Bytes → Bytes) (tm : Tm) (site : Site) (payload : List Piece) : Prop where
  plain {piece : Bytes} {b : UInt8} : piece ∈ accepted stale tm payload → b ∈ piece →
    b ≠ 0 ∧ b ≠ lf
  fits : (getSystemTime tm).length + (accepted stale tm payload).flatten.length +
    (5 + (trailer site).length + 1) < maxLength

section Text

variable {stale : Bytes → Bytes} {tm : Tm} {site : Site} {payload : List Piece}

theorem plain_of_digit {b : UInt8} (h : 48 ≤ b.toNat ∧ b.toNat ≤ 57) : Plain b ∧ b ≠ 70 := by
  refine ⟨⟨?_, ?_, ?_⟩, ?_⟩
  all_goals
    rintro rfl
    revert h
    decide

/-- The time behind its bracket: digits, `-`, `:`, a blank and the closing bracket. -/
theorem getSystemTime_tail (tm : Tm) : ∃ rest, getSystemTime tm = 91 :: rest ∧ rest ≠ [] ∧
    ∀ b ∈ rest, Plain b ∧ b ≠ 70 := by
  refine ⟨_, rfl, by simp [show str "]" ≠ [] by decide], ?_⟩
  have hpad : ∀ width n, ∀ b ∈ pad width n, Plain b ∧ b ≠ 70 := by
    intro width n b hb
    rcases List.mem_append.mp hb with hb | hb
    · rw [List.eq_of_mem_replicate hb]
      decide
    · exact plain_of_digit (Http.decimal_digit hb)
  have hmark : ∀ s ∈ [str "-", str " ", str ":", str "]"], ∀ b ∈ s, Plain b ∧ b ≠ 70 := by decide
  intro b hb
  simp only [List.mem_append, or_assoc] at hb
  rcases hb with hb | hb | hb | hb | hb | hb | hb | hb | hb | hb | hb | hb
  all_goals
    first
    | exact hpad _ _ b hb
    | exact hmark _ (by simp) b hb

/-- The bytes of the trailer, where the line number is still found in its place. -/
theorem trailerPieces_bytes
    (hstale : cStr (stale (decimalInt site.line)) = decimalInt site.line) :
    (trailerPieces site).map (Piece.bytes stale) =
      [str "     [FileName:", site.filename, str " ", str "Line:", decimal site.line,
        str "]\n"] := by
  have h1 : cStr (str "     [FileName:") = str "     [FileName:" := by decide
  have h2 : cStr (str " ") = str " " := by decide
  have h3 : cStr (str "Line:") = str "Line:" := by decide
  have h4 : cStr (str "]\n") = str "]\n" := by decide
  have hline : decimalInt site.line = decimal site.line := by
    simp [decimalInt]
  rw [hline] at hstale
  simp only [trailerPieces, List.map_cons, List.map_nil, Piece.bytes, hline, hstale, h1, h2, h3, h4]

/-- The trailer behind its first ten characters. -/
def trailerRest (site : Site) : Bytes :=
  site.filename ++ str " " ++ str "Line:" ++ decimal site.line ++ str "]\n"

theorem trailer_eq (site : Site) :
    trailer site ++ [lf] = 91 :: (str "FileName:" ++ trailerRest site) := by
  have h1 : str "[FileName:" = 91 :: str "FileName:" := by decide
  have h2 : str " Line:" = str " " ++ str "Line:" := by decide
  have h3 : str "]\n" = str "]" ++ [lf] := by decide
  simp [trailer, trailerRest, h1, h2, h3]

theorem trailerRest_plain (site : Site) :
    ∃ rest, trailerRest site = rest ++ [lf] ∧ ∀ b ∈ rest, Plain b := by
  have h3 : str "]\n" = str "]" ++ [lf] := by decide
  have hmark : ∀ s ∈ [str " ", str "Line:", str "]"], ∀ b ∈ s, Plain b := by decide
  refine ⟨site.filename ++ str " " ++ str "Line:" ++ decimal site.line ++ str "]",
    by simp [trailerRest, h3], ?_⟩
  intro b hb
  simp only [List.mem_append, or_assoc] at hb
  rcases hb with hb | hb | hb | hb | hb
  · exact site.plain b hb
  · exact hmark _ (by simp) b hb
  · exact hmark _ (by simp) b hb
  · exact (plain_of_digit (Http.decimal_digit hb)).1
  · exact hmark _ (by simp) b hb

theorem bracket_notMem_trailerRest (site : Site) : 91 ∉ trailerRest site := by
  obtain ⟨rest, hrest, hplain⟩ := trailerRest_plain site
  rw [hrest]
  intro hmem
  rcases List.mem_append.mp hmem with hmem | hmem
  · exact (hplain 91 hmem).2.2 rfl
  · revert hmem
    decide

/-- The text of a message: the time, the payload, and the pieces of the trailer that fit. -/
theorem logText_eq :
    logText stale tm site payload = getSystemTime tm ++ (accepted stale tm payload).flatten ++
      (taken maxLength ((getSystemTime tm).length + (accepted stale tm payload).flatten.length)
        ((trailerPieces site).map (Piece.bytes stale))).flatten := by
  rw [logText, List.map_append, taken_append, List.flatten_append, List.append_assoc]
  rfl

theorem blank_eq : str "     [FileName:" = str "     " ++ 91 :: str "FileName:" := by decide

/-- The text when the whole trailer fits, up to its newline. -/
def lineBody (stale : Bytes → Bytes) (tm : Tm) (site : Site) (payload : List Piece) : Bytes :=
  getSystemTime tm ++ (accepted stale tm payload).flatten ++ (str "     " ++ trailer site)

theorem trailerPieces_flatten
    (hstale : cStr (stale (decimalInt site.line)) = decimalInt site.line) :
    ((trailerPieces site).map (Piece.bytes stale)).flatten =
      str "     " ++ (trailer site ++ [lf]) := by
  rw [trailerPieces_bytes hstale, trailer_eq, trailerRest, blank_eq]
  simp

/-- The text when all of the trailer is taken. -/
theorem logText_of_taken
    (h : (taken maxLength
      ((getSystemTime tm).length + (accepted stale tm payload).flatten.length)
      ((trailerPieces site).map (Piece.bytes stale))).flatten =
        str "     " ++ (trailer site ++ [lf])) :
    logText stale tm site payload = lineBody stale tm site payload ++ [lf] := by
  rw [logText_eq, h, lineBody]
  simp

theorem Clean.logText_eq
    (hstale : cStr (stale (decimalInt site.line)) = decimalInt site.line)
    (h : Clean stale tm site payload) :
    logText stale tm site payload = lineBody stale tm site payload ++ [lf] := by
  apply logText_of_taken
  have hflat := trailerPieces_flatten hstale
  have hfive : (str "     ").length = 5 := by decide
  have hfits := h.fits
  rw [taken_eq_self, hflat]
  rw [hflat, List.length_append, List.length_append, hfive, List.length_singleton]
  omega

/-- Only the last character of a clean record is a newline. -/
theorem Clean.lineBody_plain (h : Clean stale tm site payload) :
    ∀ b ∈ lineBody stale tm site payload, b ≠ 0 ∧ b ≠ lf := by
  obtain ⟨time, htime, -, htimePlain⟩ := getSystemTime_tail tm
  obtain ⟨rest, hrest, hrestPlain⟩ := trailerRest_plain site
  have htrailer : trailer site = 91 :: (str "FileName:" ++ rest) := by
    have heq := trailer_eq site
    rw [hrest] at heq
    exact List.append_cancel_right (heq.trans (by simp))
  have hmark : ∀ s ∈ [str "     ", str "FileName:"], ∀ b ∈ s, b ≠ 0 ∧ b ≠ lf := by decide
  have hbracket : (91 : UInt8) ≠ 0 ∧ (91 : UInt8) ≠ lf := by decide
  intro b hb
  rw [lineBody, htime, htrailer] at hb
  simp only [List.mem_append, List.mem_cons, List.mem_flatten, or_assoc] at hb
  rcases hb with rfl | hb | ⟨piece, hpiece, hb⟩ | hb | rfl | hb | hb
  · exact hbracket
  · exact ⟨(htimePlain b hb).1.1, (htimePlain b hb).1.2.1⟩
  · exact h.plain hpiece hb
  · exact hmark _ (by simp) b hb
  · exact hbracket
  · exact hmark _ (by simp) b hb
  · exact ⟨(hrestPlain b hb).1, (hrestPlain b hb).2.1⟩

/-- **A record is one whole line** if the pieces of the payload that fit are plain and the trailer
fits. -/
theorem wholeLine_of_clean
    (hstale : cStr (stale (decimalInt site.line)) = decimalInt site.line)
    (h : Clean stale tm site payload) :
    WholeLine tm site (cStr (logText stale tm site payload)) := by
  have hnul : 0 ∉ lineBody stale tm site payload ++ [lf] := by
    intro hmem
    rcases List.mem_append.mp hmem with hmem | hmem
    · exact (h.lineBody_plain 0 hmem).1 rfl
    · revert hmem
      decide
  have hcount : (lineBody stale tm site payload).count lf = 0 :=
    List.count_eq_zero.mpr fun hmem => (h.lineBody_plain lf hmem).2 rfl
  rw [h.logText_eq hstale, Http.cStr_eq_self hnul]
  refine ⟨?_, ?_, ?_⟩
  · simp [lineBody]
  · exact ⟨getSystemTime tm ++ (accepted stale tm payload).flatten ++ str "     ",
      by simp [lineBody]⟩
  · rw [List.count_append, hcount, Nat.zero_add]
    rfl

theorem prefix_of_notMem {α : Type*} {x : α} {u t a b : List α} (hx : x ∉ a)
    (h : u ++ x :: t <+: a ++ b) : ∃ u', u = a ++ u' ∧ u' ++ x :: t <+: b := by
  induction a generalizing u with
  | nil => exact ⟨u, rfl, h⟩
  | cons y a ih =>
    cases u with
    | nil =>
      obtain ⟨rfl, -⟩ := List.cons_prefix_cons.mp h
      exact absurd List.mem_cons_self hx
    | cons z u =>
      obtain ⟨rfl, htail⟩ := List.cons_prefix_cons.mp h
      obtain ⟨u', rfl, hu⟩ := ih (fun hm => hx (List.mem_cons_of_mem _ hm)) htail
      exact ⟨u', rfl, hu⟩

/-- A trailer that is found among the pieces of the trailer that fit is all of them. -/
theorem taken_trailer {length : ℕ} {u : Bytes}
    (hstale : cStr (stale (decimalInt site.line)) = decimalInt site.line)
    (h : u ++ (trailer site ++ [lf]) <+:
      (taken maxLength length ((trailerPieces site).map (Piece.bytes stale))).flatten) :
    u = str "     " ∧
      (taken maxLength length ((trailerPieces site).map (Piece.bytes stale))).flatten =
        str "     " ++ (trailer site ++ [lf]) := by
  rw [trailerPieces_bytes hstale] at h ⊢
  have hrest : [site.filename, str " ", str "Line:", decimal site.line, str "]\n"].flatten =
      trailerRest site := by
    simp [trailerRest]
  rcases Nat.lt_or_ge ((str "     [FileName:").length + length) maxLength with hfit | hfit
  · rw [taken_cons_of_lt hfit, List.flatten_cons] at h ⊢
    have hsub : (taken maxLength (length + (str "     [FileName:").length)
        [site.filename, str " ", str "Line:", decimal site.line, str "]\n"]).flatten.Sublist
          (trailerRest site) := by
      rw [← hrest]
      exact flatten_taken_sublist
    obtain ⟨z, hz⟩ : ∃ z, z = (taken maxLength (length + (str "     [FileName:").length)
        [site.filename, str " ", str "Line:", decimal site.line, str "]\n"]).flatten := ⟨_, rfl⟩
    rw [← hz] at h hsub ⊢
    rw [trailer_eq, blank_eq, List.append_assoc] at h
    obtain ⟨u', rfl, hu⟩ := prefix_of_notMem (by decide) h
    cases u' with
    | nil =>
      obtain ⟨-, htail⟩ := List.cons_prefix_cons.mp hu
      have hle : trailerRest site <+: z := (List.prefix_append_right_inj _).mp htail
      obtain rfl : z = trailerRest site := hsub.eq_of_length_le hle.length_le
      refine ⟨by simp, ?_⟩
      rw [trailer_eq, blank_eq]
      simp
    | cons c u' =>
      obtain ⟨-, htail⟩ := List.cons_prefix_cons.mp hu
      have hmem : 91 ∈ str "FileName:" ++ z := htail.subset (by simp)
      have hname : 91 ∉ str "FileName:" := by decide
      rcases List.mem_append.mp hmem with hmem | hmem
      · exact absurd hmem hname
      · exact absurd (hsub.subset hmem) (bracket_notMem_trailerRest site)
  · rw [taken_cons_of_le hfit] at h
    have hlen := h.length_le.trans (flatten_taken_sublist.length_le)
    rw [hrest, trailer_eq] at hlen
    have hten : (str "FileName:").length = 9 := by decide
    simp only [List.length_append, List.length_cons, hten] at hlen
    omega

/-- A payload without a bracket in it has no trailer: what a whole line ends with is the trailer
that `~Log` put, and the line is the whole text. -/
theorem logText_of_wholeLine
    (hstale : cStr (stale (decimalInt site.line)) = decimalInt site.line)
    (hpayload : ∀ piece ∈ payload, 91 ∉ piece.bytes stale)
    (h : WholeLine tm site (cStr (logText stale tm site payload))) :
    logText stale tm site payload = lineBody stale tm site payload ++ [lf] ∧
      cStr (logText stale tm site payload) = logText stale tm site payload := by
  obtain ⟨time, htime, htimeNe, htimePlain⟩ := getSystemTime_tail tm
  have haccepted : 91 ∉ (accepted stale tm payload).flatten := by
    intro hmem
    obtain ⟨bytes, hbytes, hmem⟩ := List.mem_flatten.mp hmem
    obtain ⟨piece, hpiece, rfl⟩ := List.mem_map.mp (taken_sublist.subset hbytes)
    exact hpayload piece hpiece hmem
  have hfront : 91 ∉ time ++ (accepted stale tm payload).flatten := by
    intro hmem
    rcases List.mem_append.mp hmem with hmem | hmem
    · exact (htimePlain 91 hmem).1.2.2 rfl
    · exact haccepted hmem
  obtain ⟨u, hu⟩ := h.ends
  have hfound : u ++ (trailer site ++ [lf]) <+: logText stale tm site payload := by
    rw [hu]
    exact List.takeWhile_prefix _
  rw [logText_eq, htime, List.cons_append, List.cons_append] at hfound
  cases u with
  | nil =>
    -- a trailer does not begin as a time does
    rw [List.nil_append, trailer_eq] at hfound
    obtain ⟨-, htail⟩ := List.cons_prefix_cons.mp hfound
    obtain ⟨c, time', rfl⟩ := List.exists_cons_of_ne_nil htimeNe
    have hname : str "FileName:" = 70 :: str "ileName:" := by decide
    rw [hname] at htail
    obtain ⟨rfl, -⟩ := List.cons_prefix_cons.mp htail
    exact absurd rfl (htimePlain 70 List.mem_cons_self).2
  | cons c u =>
    -- so it lies behind the payload
    obtain ⟨rfl, htail⟩ := List.cons_prefix_cons.mp hfound
    rw [trailer_eq] at htail
    obtain ⟨u', rfl, hu'⟩ := prefix_of_notMem hfront htail
    rw [← trailer_eq] at hu'
    obtain ⟨rfl, htaken⟩ := taken_trailer hstale hu'
    rw [← htime] at htaken
    have htext := logText_of_taken htaken
    refine ⟨htext, ?_⟩
    rw [← hu, htext, lineBody, htime]
    simp

theorem clean_of_wholeLine
    (hstale : cStr (stale (decimalInt site.line)) = decimalInt site.line)
    (hpayload : ∀ piece ∈ payload, 91 ∉ piece.bytes stale)
    (h : WholeLine tm site (cStr (logText stale tm site payload))) :
    Clean stale tm site payload := by
  obtain ⟨htext, hwhole⟩ := logText_of_wholeLine hstale hpayload h
  have hnul : 0 ∉ logText stale tm site payload := by
    rw [← hwhole]
    exact Http.zero_notMem_cStr _
  have hcount : (logText stale tm site payload).count lf = 1 := by
    rw [← hwhole]
    exact h.one
  have hlength : (logText stale tm site payload).length < maxLength :=
    (logMessage_contains (fun _ => 0) stale tm site payload).length_lt
  rw [htext, lineBody] at hnul hcount hlength
  refine ⟨fun {piece b} hpiece hb => ⟨?_, ?_⟩, ?_⟩
  · rintro rfl
    have hmem : 0 ∈ (accepted stale tm payload).flatten :=
      List.mem_flatten.mpr ⟨piece, hpiece, hb⟩
    simp [hmem] at hnul
  · rintro rfl
    have hpos : 0 < (accepted stale tm payload).flatten.count lf :=
      List.count_pos_iff.mpr (List.mem_flatten.mpr ⟨piece, hpiece, hb⟩)
    have hlast : [lf].count lf = 1 := rfl
    simp only [List.count_append, hlast] at hcount
    omega
  · have hfive : (str "     ").length = 5 := by decide
    simp only [List.length_append, hfive, List.length_singleton] at hlength
    omega

end Text

/-- **Which log records are whole lines.** Where the digits of the line number are still found in
the place of the destroyed string: those whose payload is clean; and among the payloads without a
bracket no others. -/
theorem record_wholeLine_iff (memory : ℕ → UInt8) (stale : Bytes → Bytes) (tm : Tm) (site : Site)
    (payload : List Piece)
    (hstale : cStr (stale (decimalInt site.line)) = decimalInt site.line) :
    (Clean stale tm site payload →
      WholeLine tm site (record memory stale tm site payload).text) ∧
    ((∀ piece ∈ payload, 91 ∉ piece.bytes stale) →
      (WholeLine tm site (record memory stale tm site payload).text ↔
        Clean stale tm site payload)) := by
  rw [record_text]
  refine ⟨wholeLine_of_clean hstale, fun hpayload => ⟨clean_of_wholeLine hstale hpayload, ?_⟩⟩
  exact wholeLine_of_clean hstale

/-- What `handle_request_line` logs of the bytes it is given. -/
def requestPayload (chunk : Bytes) : List Piece :=
  let recvHttp := parseChunk chunk
  [.string (recvHttp.req ++ str " " ++ recvHttp.uri ++ str " " ++ recvHttp.version)]

/-- A time, and the place of the `LOG` of `handle_request_line`. -/
def spring : Tm :=
  ⟨121, 3, 12, 8, 52, 28, by decide, by decide, by decide, by decide, by decide, by decide⟩

@[inherit_doc spring] def requestSite : Site := ⟨str "Httpdata.cpp", 200, by decide⟩

/-- A request. -/
theorem record_wholeLine_iff_request :
    (record (fun _ => 65) id spring requestSite
      (requestPayload (str "GET / HTTP/1.0\r\n\r\n"))).text =
        str "[2021-04-12 08:52:28]GET / HTTP/1.0     [FileName:Httpdata.cpp Line:200]\n" ∧
    WholeLine spring requestSite (record (fun _ => 65) id spring requestSite
      (requestPayload (str "GET / HTTP/1.0\r\n\r\n"))).text := by
  have htext : cStr (logText id spring requestSite
      (requestPayload (str "GET / HTTP/1.0\r\n\r\n"))) =
        str "[2021-04-12 08:52:28]GET / HTTP/1.0     [FileName:Httpdata.cpp Line:200]\n" := by
    decide +kernel
  have hclean : Clean id spring requestSite (requestPayload (str "GET / HTTP/1.0\r\n\r\n")) := by
    have hplain : ∀ piece ∈ accepted id spring (requestPayload (str "GET / HTTP/1.0\r\n\r\n")),
        ∀ b ∈ piece, b ≠ 0 ∧ b ≠ lf := by decide +kernel
    exact ⟨fun hpiece hb => hplain _ hpiece _ hb, by decide +kernel⟩
  exact ⟨by rw [record_text, htext],
    (record_wholeLine_iff _ _ _ _ _ (by decide +kernel)).1 hclean⟩

/-- A request that is no HTTP: the record has a second newline. A byte and a NUL: the record has no
trailer and no newline. -/
theorem record_broken :
    (record (fun _ => 65) id spring requestSite (requestPayload (str "EHLO\r\n"))).text =
        str "[2021-04-12 08:52:28]EHLO\r\n       [FileName:Httpdata.cpp Line:200]\n" ∧
      ¬WholeLine spring requestSite
        (record (fun _ => 65) id spring requestSite (requestPayload (str "EHLO\r\n"))).text ∧
      (record (fun _ => 65) id spring requestSite (requestPayload [108, 0, 1])).text =
        str "[2021-04-12 08:52:28]l" ∧
      ¬WholeLine spring requestSite
        (record (fun _ => 65) id spring requestSite (requestPayload [108, 0, 1])).text := by
  have hnewline : cStr (logText id spring requestSite (requestPayload (str "EHLO\r\n"))) =
      str "[2021-04-12 08:52:28]EHLO\r\n       [FileName:Httpdata.cpp Line:200]\n" := by
    decide +kernel
  have hnul : cStr (logText id spring requestSite (requestPayload [108, 0, 1])) =
      str "[2021-04-12 08:52:28]l" := by
    decide +kernel
  rw [record_text, record_text, hnewline, hnul]
  refine ⟨rfl, fun h => absurd h.one (by decide), rfl, fun h => absurd h.one (by decide)⟩

end WebServer.Log
