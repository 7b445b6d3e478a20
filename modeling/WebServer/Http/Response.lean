import Mathlib.Algebra.BigOperators.Group.List.Basic
import Mathlib.Algebra.GroupWithZero.Nat
import Mathlib.Data.Int.Notation
import WebServer.Http.Request

/-!
# Building a response

`Httpdata::handle_http` answers a parsed request with one of four pages: the index page with a
listing of `/source`, the hello page, the page of a file named by the URI, and the page for what was
not found. What the system calls return is an `Env`. `respond` has no value where the source has no
defined behaviour: `substr(1)` of an empty URI throws, and the `string` made from a mapping that has
no NUL reads past it.

`length_le_iff_fits` says when a response, with the NUL that `sprintf` appends, fits in
`write_buff`: it depends on the version the client sent, on the listing, and on the name and the
text of the file.
-/

namespace WebServer.Http

/-! ## System calls -/

/-- An entry `readdir` returns; `d_name` is a C string. -/
structure Dirent where
  dType : UInt8
  dName : Bytes
  zero_notMem : 0 ∉ dName

/-- What the system calls of `handle_http` return: `opendir("/source")` with its entries, `open` for
each path, and `mmap` for each descriptor (the bytes that can be read from the pointer on). -/
structure Env where
  opendir : Option (List Dirent)
  openFile : Bytes → ℤ
  mmap : ℤ → Option Bytes

/-- The calls that `handle_http` makes on the descriptor of the file. -/
inductive FileCall
  | opened (fd : ℤ)
  | mapped (fd : ℤ)
  | unmapped (fd : ℤ)
  | closed (fd : ℤ)
  deriving DecidableEq

/-- `S_IFDIR`. -/
def sIfdir : ℕ := 0o040000

/-- What a C function sees of `c_str()`: the bytes up to the first NUL. -/
def cStr (s : Bytes) : Bytes := s.takeWhile (· != 0)

/-- `string(ptr)`: the bytes up to the first NUL, if the memory has one. -/
def cString (memory : Bytes) : Option Bytes := if 0 ∈ memory then some (cStr memory) else none

/-- `to_string` of a size. -/
def decimal (n : ℕ) : Bytes := (Nat.toDigits 10 n).map fun c => c.toNat.toUInt8

theorem toDigits_range {n : ℕ} {c : Char} (hc : c ∈ Nat.toDigits 10 n) :
    48 ≤ c.toNat ∧ c.toNat ≤ 57 := by
  simpa [Char.isDigit_iff_toNat] using Nat.isDigit_of_mem_toDigits (by decide) (by decide) hc

/-- The bytes of a decimal number are digits. -/
theorem decimal_digit {n : ℕ} {b : UInt8} (hb : b ∈ decimal n) : 48 ≤ b.toNat ∧ b.toNat ≤ 57 := by
  obtain ⟨c, hc, rfl⟩ := List.mem_map.mp hb
  have hrange := toDigits_range hc
  simp only [Nat.toUInt8_eq, UInt8.toNat_ofNat']
  omega

/-! ## The four pages -/

/-- The entry is listed. `d_type` has eight bits, so the first test is always passed. -/
def Dirent.listed (d : Dirent) : Bool :=
  d.dType.toNat &&& sIfdir == 0 && d.dName != str "." && d.dName != str ".."

/-- The line of an entry. -/
def sourceLink (name : Bytes) : Bytes :=
  str "<br><a href=\"/source/" ++ name ++ str "\">" ++ name ++ str "</a>"

/-- The names listed on the index page. -/
def listedNames (env : Env) : List Bytes :=
  match env.opendir with
  | some entries => (entries.filter Dirent.listed).map Dirent.dName
  | none => []

/-- The index page up to the listing. -/
def indexTop : Bytes :=
  str "<html><title>Source Page</title>" ++
  str "<body bgcolor=\"ffffff\">" ++
  str "!Thank for visiting MRWu_haha's Server!" ++
  str "<meta http-equiv=\"Content-Type\" content=\"text/html; charset=utf-8\" />" ++
  str "<br><a href=\"http://www.baidu.com\">百度一下</a>" ++
  str "<br><a href=\"https://join.qq.com\">腾讯招聘</a>" ++
  str "<br><a href=\"https://campus.kuaishou.cn\">快手招聘</a>" ++
  str "<br><a href=\"https://uniportal.huawei.com\">华为招聘</a>" ++
  str "<br><a href=\"https://campus.163.com\">网易招聘</a>" ++
  str "<br><a href=\"https://careers.pinduoduo.com\">拼多多招聘</a>" ++
  str "<br><a href=\"https://campus.alibaba.com\">阿里巴巴招聘</a>" ++
  str "<br><a href=\"https://campus.bigo.sg\">BIGO招聘</a><br>" ++
  str "<font size=\"5\"> MR-Wuhaha's Source Flie List: </font><br/>"

def indexPage (env : Env) : Bytes :=
  indexTop ++ (listedNames env).flatMap sourceLink ++ str "</body></html>"

def helloPage : Bytes :=
  str "<html><title>Hello</title>" ++
  str "<body bgcolor=\"ffffff\">" ++
  str "Thank for visiting this server!!!!" ++
  str "<hr><em> MR_Wuhaha's WebServer </em>\n</body></html>"

/-- The page of a file: its title, the URI without its first character, and its text. -/
def filePage (title text : Bytes) : Bytes :=
  str "<html>" ++
  (str "<title>" ++ title ++ str "</title>") ++
  str "<head>" ++
  str "<meta http-equiv=\"content-type\" content=\"text/html; charset=utf-8\">" ++
  str "</head>" ++
  str "<body bgcolor=\"ffffff\">" ++
  str "MR_Wuhaha's WebServer" ++
  str "<hr><pre style=\"word-wrap: break-word; white-space: pre-wrap; white-space: -moz-pre-wrap\">" ++
  text ++
  str "</pre>\n</body></html>"

def notFoundPage : Bytes :=
  str "<html><title>Source Not Found</title>" ++
  str "<body bgcolor=\"ffffff\">" ++
  str "404 NOT_FOUND" ++
  str "<hr><em> MR_Wuhaha's WebServer </em>\n</body></html>"

/-- The head of a response: the four branches differ in the status and in the spelling of
`Content-Type`. -/
def responseHead (version : Bytes) (status contentType : String) (body : Bytes) : Bytes :=
  version ++ str status ++ str "Connection: Keep-Alive\r\n" ++ str contentType ++
    (str "Content-Length: " ++ decimal body.length ++ str "\r\n") ++ str "\r\n"

/-- A response, with the calls made on the file. -/
structure Reply where
  head : Bytes
  body : Bytes
  calls : List FileCall

/-- The bytes `sprintf` formats: `head + body`. -/
def Reply.sendStr (r : Reply) : Bytes := r.head ++ r.body

/-- The file named by the URI, if it can be opened and mapped: `request_fd > 0` and `ptr` is not
`MAP_FAILED`. -/
def mappedFile (env : Env) (uri : Bytes) : Option Bytes :=
  let fd := env.openFile (cStr uri)
  if fd > 0 then env.mmap fd else none

/-- The response to a parsed request. -/
def respond (env : Env) (recvHttp : HttpHandle) : Option Reply :=
  if recvHttp.uri = str "/" then
    let body := indexPage env
    some ⟨responseHead recvHttp.version " 200 OK\r\n" "Content-type: text/html\r\n" body, body, []⟩
  else if recvHttp.uri = str "/hello" then
    let body := helloPage
    some ⟨responseHead recvHttp.version " 200 OK\r\n" "Content-Type: text/html\r\n" body, body, []⟩
  else
    let fd := env.openFile (cStr recvHttp.uri)
    let opened := if fd < 0 then [] else [FileCall.opened fd]
    match mappedFile env recvHttp.uri with
    | some memory =>
      -- `substr(1)` throws when there is no first character
      if recvHttp.uri = [] then none
      else (cString memory).map fun text =>
        let body := filePage (recvHttp.uri.drop 1) text
        ⟨responseHead recvHttp.version " 200 OK\r\n" "Content-Type: text/html\r\n" body, body,
          opened ++ [.mapped fd, .unmapped fd, .closed fd]⟩
    | none =>
      let body := notFoundPage
      some ⟨responseHead recvHttp.version " 404 NOTFOUND\r\n" "Content-Type: text/html\r\n" body,
        body, opened⟩

/-- The response of `handle_http` to the bytes received in one event. -/
def handleHttp (env : Env) (chunk : Bytes) : Option Reply := respond env (parseChunk chunk)

/-- **What `handle_http` can answer**: one of the four pages, each with its head. -/
theorem handleHttp_cases {env : Env} {chunk : Bytes} {r : Reply}
    (h : handleHttp env chunk = some r) :
    ((parseChunk chunk).uri = str "/" ∧
      r.head = responseHead (parseChunk chunk).version " 200 OK\r\n" "Content-type: text/html\r\n"
        r.body ∧ r.body = indexPage env) ∨
    ((parseChunk chunk).uri ≠ str "/" ∧ (parseChunk chunk).uri = str "/hello" ∧
      r.head = responseHead (parseChunk chunk).version " 200 OK\r\n" "Content-Type: text/html\r\n"
        r.body ∧ r.body = helloPage) ∨
    ((parseChunk chunk).uri ≠ str "/" ∧ (parseChunk chunk).uri ≠ str "/hello" ∧
      (∃ memory text, mappedFile env (parseChunk chunk).uri = some memory ∧
        cString memory = some text ∧ r.body = filePage ((parseChunk chunk).uri.drop 1) text) ∧
      r.head = responseHead (parseChunk chunk).version " 200 OK\r\n" "Content-Type: text/html\r\n"
        r.body) ∨
    ((parseChunk chunk).uri ≠ str "/" ∧ (parseChunk chunk).uri ≠ str "/hello" ∧
      mappedFile env (parseChunk chunk).uri = none ∧ r.body = notFoundPage ∧
      r.head = responseHead (parseChunk chunk).version " 404 NOTFOUND\r\n"
        "Content-Type: text/html\r\n" r.body) := by
  unfold handleHttp respond at h
  split at h
  · rename_i huri
    obtain rfl := Option.some.inj h
    exact .inl ⟨huri, rfl, rfl⟩
  · rename_i huri
    split at h
    · rename_i hhello
      obtain rfl := Option.some.inj h
      exact .inr (.inl ⟨huri, hhello, rfl, rfl⟩)
    · rename_i hhello
      dsimp only at h
      split at h
      · rename_i memory hmem
        split at h
        · cases h
        · obtain ⟨text, htext, rfl⟩ := Option.map_eq_some_iff.mp h
          exact .inr (.inr (.inl ⟨huri, hhello, ⟨memory, text, hmem, htext, rfl⟩, rfl⟩))
      · rename_i hmem
        obtain rfl := Option.some.inj h
        exact .inr (.inr (.inr ⟨huri, hhello, hmem, rfl, rfl⟩))

/-- Every head has the version of the request in it. -/
theorem handleHttp_head {env : Env} {chunk : Bytes} {r : Reply}
    (h : handleHttp env chunk = some r) :
    ∃ status contentType,
      r.head = responseHead (parseChunk chunk).version status contentType r.body := by
  obtain ⟨-, hhead, -⟩ | ⟨-, -, hhead, -⟩ | ⟨-, -, -, hhead⟩ | ⟨-, -, -, -, hhead⟩ :=
    handleHttp_cases h <;> exact ⟨_, _, hhead⟩

/-! ## Length -/

theorem length_sourceLink (name : Bytes) : (sourceLink name).length = 2 * name.length + 27 := by
  have h1 : (str "<br><a href=\"/source/").length = 21 := by decide
  have h2 : (str "\">").length = 2 := by decide
  have h3 : (str "</a>").length = 4 := by decide
  simp only [sourceLink, List.length_append, h1, h2, h3]
  omega

/-- The length of the listing. -/
def listingLength (env : Env) : ℕ := ((listedNames env).map fun name => 2 * name.length + 27).sum

theorem length_indexPage (env : Env) : (indexPage env).length = listingLength env + 686 := by
  have h1 : indexTop.length = 672 := by decide +kernel
  have h2 : (str "</body></html>").length = 14 := by decide
  have h3 : ((listedNames env).flatMap sourceLink).length = listingLength env := by
    rw [List.length_flatMap, listingLength]
    simp only [length_sourceLink]
  simp only [indexPage, List.length_append, h1, h2, h3]
  omega

theorem length_helloPage : helloPage.length = 134 := by decide +kernel

theorem length_notFoundPage : notFoundPage.length = 124 := by decide +kernel

theorem length_filePage (title text : Bytes) :
    (filePage title text).length = title.length + text.length + 256 := by
  have h0 : (filePage [] []).length = 256 := by decide +kernel
  simp only [filePage, List.length_append, List.length_nil] at h0 ⊢
  omega

theorem length_responseHead (version : Bytes) (status contentType : String) (body : Bytes) :
    (responseHead version status contentType body).length =
      version.length + (str status).length + (str contentType).length +
        (decimal body.length).length + 44 := by
  have h1 : (str "Connection: Keep-Alive\r\n").length = 24 := by decide
  have h2 : (str "Content-Length: ").length = 16 := by decide
  have h3 : (str "\r\n").length = 2 := by decide
  simp only [responseHead, List.length_append, h1, h2, h3]
  omega

theorem length_ok : (str " 200 OK\r\n").length = 9 := by decide

theorem length_notFound : (str " 404 NOTFOUND\r\n").length = 15 := by decide

theorem length_contentType : (str "Content-type: text/html\r\n").length = 25 ∧
    (str "Content-Type: text/html\r\n").length = 25 := by decide

/-- The size of `write_buff`. -/
def maxReadWriteBuffLength : ℕ := 4096

/-- The condition under which a response fits: for the two fixed pages a bound on the version
alone, for the index page one on the version and the listing, for the page of a file one on the
version, the URI and the text of the file. -/
def Fits (env : Env) (recvHttp : HttpHandle) : Prop :=
  if recvHttp.uri = str "/" then
    recvHttp.version.length + listingLength env +
      (decimal (listingLength env + 686)).length ≤ 3331
  else if recvHttp.uri = str "/hello" then recvHttp.version.length ≤ 3880
  else
    match mappedFile env recvHttp.uri with
    | some memory =>
      ∀ text, cString memory = some text →
        recvHttp.version.length + (recvHttp.uri.length - 1) + text.length +
          (decimal (recvHttp.uri.length - 1 + text.length + 256)).length ≤ 3761
    | none => recvHttp.version.length ≤ 3884

/-- **When a response fits in `write_buff`**, with the NUL that `sprintf` appends. -/
theorem length_le_iff_fits {env : Env} {chunk : Bytes} {r : Reply}
    (h : handleHttp env chunk = some r) :
    r.sendStr.length + 1 ≤ maxReadWriteBuffLength ↔ Fits env (parseChunk chunk) := by
  obtain ⟨hct, hcT⟩ := length_contentType
  unfold Fits
  obtain ⟨huri, hhead, hbody⟩ | ⟨huri, hhello, hhead, hbody⟩ |
    ⟨huri, hhello, ⟨memory, text, hmem, htext, hbody⟩, hhead⟩ |
    ⟨huri, hhello, hmem, hbody, hhead⟩ := handleHttp_cases h
  · -- the index page
    rw [if_pos huri]
    simp only [Reply.sendStr, List.length_append, hhead, hbody, length_responseHead,
      length_indexPage, length_ok, hct, maxReadWriteBuffLength]
    omega
  · -- the hello page: its length has three digits
    have hdec : (decimal 134).length = 3 := by decide
    rw [if_neg huri, if_pos hhello]
    simp only [Reply.sendStr, List.length_append, hhead, hbody, length_responseHead,
      length_helloPage, length_ok, hcT, hdec, maxReadWriteBuffLength]
    omega
  · -- the page of a file
    have hall : ∀ p : Bytes → Prop, (∀ t, cString memory = some t → p t) ↔ p text := by
      intro p
      simp [htext]
    rw [if_neg huri, if_neg hhello, hmem]
    dsimp only
    rw [hall]
    simp only [Reply.sendStr, List.length_append, hhead, hbody, length_responseHead,
      length_filePage, List.length_drop, length_ok, hcT, maxReadWriteBuffLength]
    omega
  · -- not found
    have hdec : (decimal 124).length = 3 := by decide
    rw [if_neg huri, if_neg hhello, hmem]
    simp only [Reply.sendStr, List.length_append, hhead, hbody, length_responseHead,
      length_notFoundPage, length_notFound, hcT, hdec, maxReadWriteBuffLength]
    omega

/-- The hello page. -/
theorem handleHttp_hello (env : Env) {chunk : Bytes} (h : (parseChunk chunk).uri = str "/hello") :
    handleHttp env chunk = some ⟨responseHead (parseChunk chunk).version " 200 OK\r\n"
      "Content-Type: text/html\r\n" helloPage, helloPage, []⟩ := by
  have hne : str "/hello" ≠ str "/" := by decide
  simp [handleHttp, respond, h, hne]

/-- No directory and no file. -/
def emptyEnv : Env := ⟨none, fun _ => -1, fun _ => none⟩

/-- A request for the hello page. -/
def helloRequest : Request := ⟨str "GET", str "/hello", str "HTTP/1.1", []⟩

theorem helloRequest_wf : helloRequest.Wf := by
  constructor <;> decide +kernel

theorem length_le_iff_fits_hello :
    ∃ r, handleHttp emptyEnv helloRequest.render = some r ∧
      r.sendStr.length + 1 ≤ maxReadWriteBuffLength := by
  have hparse := parse_render helloRequest_wf []
  rw [List.append_nil] at hparse
  have huri : (parseChunk helloRequest.render).uri = str "/hello" := by
    rw [hparse]
    rfl
  have hne : str "/hello" ≠ str "/" := by decide
  have hlen : (parseChunk helloRequest.render).version.length ≤ 3880 := by
    rw [hparse]
    decide
  have hr := handleHttp_hello emptyEnv huri
  refine ⟨_, hr, (length_le_iff_fits hr).2 ?_⟩
  unfold Fits
  rw [huri, if_neg hne, if_pos rfl]
  exact hlen

/-- A request for the hello page that fills `read_buff` with its version. -/
def longVersion : Bytes := str "G" ++ space :: (str "/hello" ++ space :: List.replicate 4087 120)

/-- The response to it does not fit in `write_buff`. -/
theorem longVersion_overflows :
    longVersion.length = 4096 ∧ ∃ r, handleHttp emptyEnv longVersion = some r ∧
      ¬ r.sendStr.length + 1 ≤ maxReadWriteBuffLength := by
  have h1 : (str "G").length = 1 := by decide
  have h2 : (str "/hello").length = 6 := by decide
  have hparse : parseChunk longVersion =
      ⟨str "G", str "/hello", List.replicate 4087 120, fun _ => none⟩ := by
    apply parseChunk_unterminated (by decide +kernel) (by decide +kernel)
    intro b hb
    rw [List.eq_of_mem_replicate hb]
    rfl
  have huri : (parseChunk longVersion).uri = str "/hello" := by rw [hparse]
  have hr := handleHttp_hello emptyEnv huri
  refine ⟨?_, _, hr, ?_⟩
  · simp only [longVersion, List.length_append, List.length_cons, List.length_replicate, h1, h2]
  · obtain ⟨-, hcT⟩ := length_contentType
    have hdec : (decimal 134).length = 3 := by decide
    simp only [Reply.sendStr, List.length_append, length_responseHead, length_helloPage, length_ok,
      hcT, hdec, hparse, List.length_replicate, maxReadWriteBuffLength]
    omega

end WebServer.Http
