import WebServer.Http.Request

/-!
# Header lines that disturb each other

`handle_request_head` looks for a colon without regard to line ends, and skips two bytes behind a
colon and two behind a value, whatever they are. On a line `Key: Value` that ends with CR LF these
are the colon and the space, and the line end: heads of such lines are parsed line by line
(`independent_of_regular`). Every other line can disturb its neighbours: there is a head that has it
and otherwise only such lines and is not parsed line by line (`exists_not_independent`).
-/

namespace WebServer.Http

/-! ## Heads and what they say -/

/-- A line of a head, with the way it ends. -/
structure HeadLine where
  text : Bytes
  /-- The line ends with CR LF, not with a bare LF. -/
  crlf : Bool
  ne_nil : text ≠ []
  not_eol : ∀ b ∈ text, isEol b = false

/-- The end of a line. -/
def lineEnd (crlf : Bool) : Bytes := if crlf then [cr, lf] else [lf]

def HeadLine.bytes (l : HeadLine) : Bytes := l.text ++ lineEnd l.crlf

/-- The lines and the empty line behind them. -/
def headBytes (lines : List HeadLine) (crlf : Bool) : Bytes :=
  lines.flatMap HeadLine.bytes ++ lineEnd crlf

/-- The text behind a colon, less one leading space. -/
def stripSpace : Bytes → Bytes
  | [] => []
  | b :: value => if isSpace b then value else b :: value

/-- The text of a line as a key and a value: what is before the first colon and what is behind. -/
def HeadLine.header (l : HeadLine) : Option (Bytes × Bytes) :=
  match l.text.dropWhile (fun b => !isColon b) with
  | [] => none
  | _ :: value => some (l.text.takeWhile (fun b => !isColon b), stripSpace value)

/-- What the lines contribute, each on its own. -/
def lineMap (lines : List HeadLine) : Bytes → Option Bytes :=
  headerMap (fun _ => none) (lines.filterMap HeadLine.header)

/-- The map that `handle_request_head` builds is the one the lines contribute, wherever the head
stands in the buffer and whatever follows it. -/
def Independent (lines : List HeadLine) (crlf : Bool) : Prop :=
  ∀ (buff : ℕ → UInt8) (readLength index : ℕ) (rest : Bytes),
    (received buff readLength).drop index = headBytes lines crlf ++ rest →
      (handleRequestHead buff readLength index .empty).1.requestHead = lineMap lines

/-- The line ends with CR LF and has a colon, the first one being followed by a space. -/
def HeadLine.Regular (l : HeadLine) : Prop :=
  l.crlf = true ∧ ∃ key value : Bytes, colon ∉ key ∧ l.text = key ++ colon :: space :: value

/-! ## Lines -/

theorem isColon_eq_false {b : UInt8} : isColon b = false ↔ b ≠ colon := by
  simp [isColon]

theorem not_isColon_of_not_mem {key : Bytes} (h : colon ∉ key) : ∀ b ∈ key, isColon b = false := by
  intro b hb
  rw [isColon_eq_false]
  rintro rfl
  exact h hb

/-- Splitting a line at its first colon. -/
theorem HeadLine.header_eq {l : HeadLine} {key value : Bytes} (hkey : colon ∉ key)
    (htext : l.text = key ++ colon :: value) : l.header = some (key, stripSpace value) := by
  have hpos : ∀ b ∈ key, (!isColon b) = true := by
    simpa using not_isColon_of_not_mem hkey
  have hdrop : l.text.dropWhile (fun b => !isColon b) = colon :: value := by
    rw [htext, List.dropWhile_append_of_pos hpos]
    rfl
  have htake : l.text.takeWhile (fun b => !isColon b) = key := by
    rw [htext, List.takeWhile_append_of_pos hpos]
    simp [isColon]
  rw [HeadLine.header, hdrop, htake]

theorem HeadLine.header_eq_none {l : HeadLine} (h : colon ∉ l.text) : l.header = none := by
  have hdrop : l.text.dropWhile (fun b => !isColon b) = [] := by
    rw [List.dropWhile_eq_nil_iff]
    simpa using not_isColon_of_not_mem h
  rw [HeadLine.header, hdrop]

/-- A line has no colon, or a first one. -/
theorem HeadLine.colon_cases (l : HeadLine) :
    colon ∉ l.text ∨ ∃ key value, colon ∉ key ∧ l.text = key ++ colon :: value := by
  by_cases h : colon ∈ l.text
  · obtain ⟨key, value, htext, hkey⟩ := List.eq_append_cons_of_mem h
    exact .inr ⟨key, value, hkey, htext⟩
  · exact .inl h

/-- A regular line is a rendered header. -/
theorem HeadLine.Regular.exists_header {l : HeadLine} (h : l.Regular) :
    ∃ key value, l.header = some (key, value) ∧ l.bytes = renderHeader (key, value) ∧
      (∀ b ∈ key, isColon b = false) ∧ (∀ b ∈ key.head?, isEol b = false) ∧
      ∀ b ∈ value, isEol b = false := by
  obtain ⟨hcrlf, key, value, hkey, htext⟩ := h
  have hnot := l.not_eol
  rw [htext] at hnot
  refine ⟨key, value, header_eq hkey htext, ?_, not_isColon_of_not_mem hkey, ?_, ?_⟩
  · rw [HeadLine.bytes, htext, hcrlf]
    simp [renderHeader, lineEnd]
  · intro b hb
    exact hnot b (List.mem_append_left _ (List.mem_of_mem_head? hb))
  · intro b hb
    exact hnot b (by simp [hb])

theorem lineEnd_eq (crlf : Bool) : ∃ e rest, lineEnd crlf = e :: rest ∧ isEol e = true := by
  cases crlf with
  | true => exact ⟨cr, [lf], rfl, rfl⟩
  | false => exact ⟨lf, [], rfl, rfl⟩

theorem flatMap_bytes_of_regular {lines : List HeadLine} (h : ∀ l ∈ lines, l.Regular) :
    lines.flatMap HeadLine.bytes = (lines.filterMap HeadLine.header).flatMap renderHeader := by
  induction lines with
  | nil => rfl
  | cons l lines ih =>
    obtain ⟨key, value, hheader, hbytes, -⟩ := (h l List.mem_cons_self).exists_header
    rw [List.flatMap_cons, List.filterMap_cons_some hheader, List.flatMap_cons, hbytes,
      ih fun l hl => h l (List.mem_cons_of_mem _ hl)]

/-! ## Heads of regular lines -/

theorem handleRequestHead_received (buff : ℕ → UInt8) (readLength index : ℕ)
    (recvHttp : HttpHandle) :
    (handleRequestHead buff readLength index recvHttp).1 =
      (headLoop (readBuff (received buff readLength)) (received buff readLength).length
        (readLength - index) index recvHttp).1 := by
  have heq : ∀ i < readLength, buff i = readBuff (received buff readLength) i :=
    fun i hi => (readBuff_received hi).symm
  rw [length_received]
  simp only [handleRequestHead, headLoop_congr heq]

/-- **A head of regular lines is parsed line by line.** -/
theorem independent_of_regular {lines : List HeadLine} (h : ∀ l ∈ lines, l.Regular) (crlf : Bool) :
    Independent lines crlf := by
  intro buff readLength index rest hhead
  obtain ⟨e, rest', hend, he⟩ := lineEnd_eq crlf
  have hwf : ∀ hd ∈ lines.filterMap HeadLine.header, (∀ b ∈ hd.1, isColon b = false) ∧
      (∀ b ∈ hd.1.head?, isEol b = false) ∧ ∀ b ∈ hd.2, isEol b = false := by
    intro hd hmem
    obtain ⟨l, hl, hheader⟩ := List.mem_filterMap.mp hmem
    obtain ⟨key, value, hheader', -, hkey, hkhead, hvalue⟩ := (h l hl).exists_header
    obtain rfl := Option.some.inj (hheader'.symm.trans hheader)
    exact ⟨hkey, hkhead, hvalue⟩
  have hbytes : (received buff readLength).drop index =
      (lines.filterMap HeadLine.header).flatMap renderHeader ++ e :: (rest' ++ rest) := by
    rw [hhead, headBytes, hend, flatMap_bytes_of_regular h, List.append_assoc]
    rfl
  rw [handleRequestHead_received, headLoop_render _ _ _ _ he hbytes (by rw [length_received])
    (fun hd hm => (hwf hd hm).1) (fun hd hm => (hwf hd hm).2.1) fun hd hm => (hwf hd hm).2.2]
  rfl

/-! ## Lines that are not regular -/

/-- A head that is received alone. -/
theorem Independent.headLoop_eq {lines : List HeadLine} {crlf : Bool} {chunk : Bytes} {fuel : ℕ}
    (h : Independent lines crlf) (hchunk : chunk = headBytes lines crlf)
    (hfuel : chunk.length = fuel) :
    (headLoop (readBuff chunk) chunk.length fuel 0 .empty).1.requestHead = lineMap lines := by
  have hrec : received (readBuff chunk) chunk.length = chunk := by
    refine List.ext_getElem length_received fun i h₁ h₂ => ?_
    simp [received, readBuff, h₂]
  have hmap := h (readBuff chunk) chunk.length 0 [] (by
    rw [hrec, List.drop_zero, List.append_nil, hchunk])
  rw [handleRequestHead_received, hrec, Nat.sub_zero, hfuel] at hmap
  rw [hfuel]
  exact hmap

/-- Without a colon in sight, all that is left is a key. -/
theorem headLoop_no_colon {chunk : Bytes} (hne : chunk ≠ [])
    (hcolon : ∀ b ∈ chunk, isColon b = false) (hhead : ∀ b ∈ chunk.head?, isEol b = false)
    (fuel : ℕ) (recvHttp : HttpHandle) :
    (headLoop (readBuff chunk) chunk.length (fuel + 1) 0 recvHttp).1.requestHead =
      Function.update recvHttp.requestHead chunk (some []) := by
  have hpos : 0 < chunk.length := List.length_pos_iff.mpr hne
  have hfirst : isEol (readBuff chunk 0) = false :=
    hhead _ (by simpa using head?_drop_eq_readBuff hpos)
  have hnil : ∀ n, chunk.drop (0 + chunk.length + n) = [] := by
    intro n
    exact List.drop_eq_nil_of_le (by omega)
  have hscan1 := scan_rest (List.drop_zero (l := chunk)) hcolon
  have hscan2 : scan (readBuff chunk) chunk.length isEol (0 + chunk.length + 2) =
      ([], 0 + chunk.length + 2) :=
    scan_rest (hnil 2) (by simp)
  simp only [headLoop, if_pos (And.intro hpos hfirst), hscan1, hscan2]
  rw [headLoop_stop]
  simp [Nat.add_assoc]

/-- A line without a colon becomes part of a key, with all that follows it. -/
theorem not_independent_no_colon {l : HeadLine} (h : colon ∉ l.text) :
    ¬ Independent [l] true := by
  intro hind
  obtain ⟨chunk, hdef⟩ : ∃ chunk, chunk = headBytes [l] true := ⟨_, rfl⟩
  have hchunk : chunk = l.text ++ (lineEnd l.crlf ++ lineEnd true) := by
    simp [hdef, headBytes, HeadLine.bytes]
  have hne : chunk ≠ [] := by
    simp [hchunk, l.ne_nil]
  have hcolon : ∀ b ∈ chunk, isColon b = false := by
    have hends : ∀ b ∈ lineEnd l.crlf ++ lineEnd true, isColon b = false := by
      cases l.crlf <;> decide
    intro b hb
    rw [hchunk, List.mem_append] at hb
    exact hb.elim (not_isColon_of_not_mem h b) (hends b)
  have hhead : ∀ b ∈ chunk.head?, isEol b = false := by
    intro b hb
    rw [hchunk, List.head?_append_of_ne_nil _ l.ne_nil] at hb
    exact l.not_eol b (List.mem_of_mem_head? hb)
  obtain ⟨fuel, hfuel⟩ : ∃ fuel, chunk.length = fuel + 1 :=
    ⟨chunk.length - 1, by have := List.length_pos_iff.mpr hne; omega⟩
  have hmap := hind.headLoop_eq hdef hfuel
  rw [headLoop_no_colon hne hcolon hhead] at hmap
  have hkey := congrFun hmap chunk
  simp [lineMap, headerMap, HeadLine.header_eq_none h] at hkey

/-- Behind a colon a byte other than a space is lost. -/
theorem not_independent_no_space {l : HeadLine} {key value : Bytes} {b : UInt8}
    (hkey : colon ∉ key) (htext : l.text = key ++ colon :: b :: value) (hb : b ≠ space) :
    ¬ Independent [l] true := by
  intro hind
  have hnot := l.not_eol
  rw [htext] at hnot
  obtain ⟨chunk, hdef⟩ : ∃ chunk, chunk = headBytes [l] true := ⟨_, rfl⟩
  -- what follows the end of the line, one byte of the closing line end less after a bare LF
  obtain ⟨e, e', rest, hend, he, hrest⟩ : ∃ e e' rest,
      lineEnd l.crlf ++ lineEnd true = e :: e' :: rest ∧ isEol e = true ∧
        ∀ b ∈ rest.head?, isEol b = true := by
    cases l.crlf with
    | true => exact ⟨cr, lf, [cr, lf], rfl, rfl, by decide⟩
    | false => exact ⟨lf, cr, [lf], rfl, rfl, by decide⟩
  have hchunk : chunk.drop 0 = key ++ colon :: b :: (value ++ e :: e' :: rest) := by
    rw [← hend]
    simp [hdef, headBytes, HeadLine.bytes, htext]
  obtain ⟨fuel, hfuel⟩ : ∃ fuel, chunk.length = fuel + 1 := by
    refine ⟨chunk.length - 1, ?_⟩
    have hlen := congrArg List.length hchunk
    simp only [List.length_drop, List.length_append, List.length_cons] at hlen
    omega
  have hmap := hind.headLoop_eq hdef hfuel
  have hstop := drop_word_cons_cons (drop_word_cons_cons hchunk)
  rw [headLoop_turn fuel _ hchunk (not_isColon_of_not_mem hkey)
    (fun b hb => hnot b (List.mem_append_left _ (List.mem_of_mem_head? hb)))
    (fun b hb => hnot b (by simp [hb])) he, headLoop_stop (by rwa [hstop])] at hmap
  have hvalue := congrFun hmap key
  simp [lineMap, headerMap, HeadLine.header_eq hkey htext, stripSpace, isSpace, hb] at hvalue

/-- The regular line `xKey: z`. -/
def nextLine (key : Bytes) (hkey : ∀ b ∈ key, isEol b = false) : HeadLine where
  text := 120 :: (key ++ colon :: space :: [122])
  crlf := true
  ne_nil := List.cons_ne_nil _ _
  not_eol := by
    intro b hb
    simp only [List.mem_cons, List.mem_append, List.not_mem_nil, or_false] at hb
    obtain rfl | hb | rfl | rfl | rfl := hb
    · rfl
    · exact hkey b hb
    all_goals rfl

theorem nextLine_text {key : Bytes} (hkey : ∀ b ∈ key, isEol b = false) :
    (nextLine key hkey).text = 120 :: key ++ [colon, space, 122] := rfl

theorem nextLine_bytes {key : Bytes} (hkey : ∀ b ∈ key, isEol b = false) :
    (nextLine key hkey).bytes = 120 :: (key ++ [colon, space, 122, cr, lf]) := by
  simp [HeadLine.bytes, nextLine, lineEnd]

theorem colon_notMem_cons {key : Bytes} (hcolon : colon ∉ key) : colon ∉ (120 :: key : Bytes) :=
  List.not_mem_cons_of_ne_of_not_mem (by decide) hcolon

theorem nextLine_regular {key : Bytes} (hkey : ∀ b ∈ key, isEol b = false) (hcolon : colon ∉ key) :
    (nextLine key hkey).Regular :=
  ⟨rfl, 120 :: key, [122], colon_notMem_cons hcolon, rfl⟩

/-- Heads of two lines of which the second is never seen as one. -/
theorem not_independent_of_unseen {l : HeadLine} {key : Bytes} (hkey : ∀ b ∈ key, isEol b = false)
    (hcolon : colon ∉ key)
    (hunseen : ∀ fuel, (headLoop (readBuff (headBytes [l, nextLine key hkey] true))
      (headBytes [l, nextLine key hkey] true).length (fuel + 2) 0 .empty).1.requestHead
        (120 :: key) = none) :
    ¬ Independent [l, nextLine key hkey] true := by
  intro hind
  obtain ⟨fuel, hfuel⟩ : ∃ fuel, (headBytes [l, nextLine key hkey] true).length = fuel + 2 :=
    ⟨(headBytes [l, nextLine key hkey] true).length - 2, by
      simp [headBytes, HeadLine.bytes, lineEnd]; omega⟩
  have hheader : (nextLine key hkey).header = some (120 :: key, [122]) := by
    rw [HeadLine.header_eq (colon_notMem_cons hcolon) (nextLine_text hkey)]
    rfl
  have hmap := congrFun (hind.headLoop_eq rfl hfuel) (120 :: key)
  rw [hunseen] at hmap
  cases hl : l.header with
  | none => simp [lineMap, headerMap, hl, hheader] at hmap
  | some hd => simp [lineMap, headerMap, hl, hheader] at hmap

/-- The rest `Key: z` of a line `xKey: z` that lost its first byte. -/
theorem headLoop_shifted {chunk key : Bytes} {i : ℕ} (hkey : ∀ b ∈ key, isEol b = false)
    (hcolon : colon ∉ key) (fuel : ℕ) (recvHttp : HttpHandle)
    (hchunk : chunk.drop i = key ++ colon :: space :: ([122] ++ cr :: lf :: [cr, lf])) :
    (headLoop (readBuff chunk) chunk.length (fuel + 1) i recvHttp).1.requestHead (120 :: key) =
      recvHttp.requestHead (120 :: key) := by
  have hstop := drop_word_cons_cons (drop_word_cons_cons hchunk)
  rw [headLoop_turn fuel recvHttp hchunk (not_isColon_of_not_mem hcolon)
    (fun b hb => hkey b (List.mem_of_mem_head? hb)) (by decide) rfl,
    headLoop_stop (by rw [hstop]; decide)]
  exact Function.update_of_ne (List.cons_ne_self _ _) _ _

/-- A line `Key:` or `Key: value` of which one byte less than the two that are skipped is left costs
the next line its first byte. -/
theorem not_independent_shift {l : HeadLine} {key value : Bytes} {c : UInt8}
    (hkey : ∀ b ∈ key, isEol b = false) (hcolon : colon ∉ key)
    (hvalue : ∀ b ∈ value, isEol b = false)
    (hbytes : l.bytes = key ++ colon :: c :: (value ++ [lf])) :
    ¬ Independent [l, nextLine key hkey] true := by
  refine not_independent_of_unseen hkey hcolon fun fuel => ?_
  obtain ⟨chunk, hdef⟩ : ∃ chunk, chunk = headBytes [l, nextLine key hkey] true := ⟨_, rfl⟩
  have hchunk : chunk.drop 0 = key ++ colon :: c :: (value ++ lf :: 120 ::
      (key ++ colon :: space :: ([122] ++ cr :: lf :: [cr, lf]))) := by
    simp [hdef, headBytes, hbytes, nextLine_bytes, lineEnd]
  rw [← hdef, headLoop_turn (fuel + 1) _ hchunk (not_isColon_of_not_mem hcolon)
    (fun b hb => hkey b (List.mem_of_mem_head? hb)) hvalue rfl,
    headLoop_shifted hkey hcolon _ _ (drop_word_cons_cons (drop_word_cons_cons hchunk))]
  exact Function.update_of_ne (List.cons_ne_self _ _) _ _

/-- A line `Key:` that ends with a bare LF has the next line as its value. -/
theorem not_independent_swallow {l : HeadLine} {key : Bytes} (hkey : ∀ b ∈ key, isEol b = false)
    (hcolon : colon ∉ key) (hbytes : l.bytes = key ++ [colon, lf]) :
    ¬ Independent [l, nextLine key hkey] true := by
  refine not_independent_of_unseen hkey hcolon fun fuel => ?_
  obtain ⟨chunk, hdef⟩ : ∃ chunk, chunk = headBytes [l, nextLine key hkey] true := ⟨_, rfl⟩
  have hchunk : chunk.drop 0 = key ++ colon :: lf ::
      ((nextLine key hkey).text ++ cr :: lf :: [cr, lf]) := by
    simp [hdef, headBytes, hbytes, nextLine_bytes, nextLine_text, lineEnd]
  have hstop := drop_word_cons_cons (drop_word_cons_cons hchunk)
  rw [← hdef, headLoop_turn (fuel + 1) _ hchunk (not_isColon_of_not_mem hcolon)
    (fun b hb => hkey b (List.mem_of_mem_head? hb)) (nextLine key hkey).not_eol rfl,
    headLoop_stop (by rw [hstop]; decide)]
  exact Function.update_of_ne (List.cons_ne_self _ _) _ _

/-- **Every line that is not regular disturbs some head of otherwise regular lines.** -/
theorem exists_not_independent {l : HeadLine} (h : ¬ l.Regular) :
    ∃ after : List HeadLine, (∀ l' ∈ after, l'.Regular) ∧ ¬ Independent (l :: after) true := by
  obtain hcolon | ⟨key, value, hcolon, htext⟩ := l.colon_cases
  · exact ⟨[], by simp, not_independent_no_colon hcolon⟩
  have hnot := l.not_eol
  rw [htext] at hnot
  have hkey : ∀ b ∈ key, isEol b = false := fun b hb => hnot b (List.mem_append_left _ hb)
  have hnext : ∀ l' ∈ [nextLine key hkey], l'.Regular := by
    simpa using nextLine_regular hkey hcolon
  cases value with
  | nil =>
    refine ⟨[nextLine key hkey], hnext, ?_⟩
    cases hcrlf : l.crlf with
    | true =>
      apply not_independent_shift hkey hcolon (List.forall_mem_nil _) (c := cr)
      simp [HeadLine.bytes, htext, hcrlf, lineEnd]
    | false =>
      apply not_independent_swallow hkey hcolon
      simp [HeadLine.bytes, htext, hcrlf, lineEnd]
  | cons b value =>
    by_cases hb : b = space
    · subst hb
      have hcrlf : l.crlf = false := by
        rw [← Bool.not_eq_true]
        exact fun hcrlf => h ⟨hcrlf, key, value, hcolon, htext⟩
      have hvalue : ∀ b ∈ value, isEol b = false := fun b hb => hnot b (by simp [hb])
      refine ⟨[nextLine key hkey], hnext, not_independent_shift hkey hcolon hvalue (c := space) ?_⟩
      simp [HeadLine.bytes, htext, hcrlf, lineEnd]
    · exact ⟨[], by simp, not_independent_no_space hcolon htext hb⟩

/-! ## The condition on the lines -/

/-- **The regular lines are the ones that can be relied on**: every head that is made of some lines,
in any order and any number of times, and of regular ones is parsed line by line exactly if all of
these lines are regular. -/
theorem independent_iff_regular (lines : List HeadLine) :
    (∀ (head : List HeadLine) (crlf : Bool), (∀ l ∈ head, l ∈ lines ∨ l.Regular) →
      Independent head crlf) ↔ ∀ l ∈ lines, l.Regular := by
  constructor
  · intro h l hl
    by_contra hirregular
    obtain ⟨after, hafter, hnot⟩ := exists_not_independent hirregular
    refine hnot (h (l :: after) true fun l' hl' => ?_)
    obtain rfl | hl' := List.mem_cons.mp hl'
    · exact .inl hl
    · exact .inr (hafter l' hl')
  · intro h head crlf hhead
    exact independent_of_regular (fun l hl => (hhead l hl).elim (h l) id) crlf

/-- The line `Host: a`. -/
def hostLine : HeadLine := ⟨str "Host: a", true, by decide, by decide⟩

/-- The line `Connection: keep-alive`. -/
def connectionLine : HeadLine := ⟨str "Connection: keep-alive", true, by decide, by decide⟩

theorem independent_iff_regular_host :
    (∀ l ∈ [hostLine, connectionLine], l.Regular) ∧
      Independent [hostLine, connectionLine] true := by
  have hhost : hostLine.Regular := ⟨rfl, str "Host", str "a", by decide, rfl⟩
  have hconn : connectionLine.Regular :=
    ⟨rfl, str "Connection", str "keep-alive", by decide, rfl⟩
  have hall : ∀ l ∈ [hostLine, connectionLine], l.Regular := by simp [hhost, hconn]
  exact ⟨hall, (independent_iff_regular _).mpr hall _ true fun l => .inl⟩

/-- The line `A:`. -/
def emptyLine : HeadLine := ⟨str "A:", true, by decide, by decide⟩

/-- Behind an empty value the key `Connection` has lost its first letter. -/
theorem emptyValue_not_independent : ¬ Independent [emptyLine, connectionLine] true := by
  intro h
  have hmap := congrFun (h.headLoop_eq rfl rfl) (str "Connection")
  revert hmap
  decide

end WebServer.Http
