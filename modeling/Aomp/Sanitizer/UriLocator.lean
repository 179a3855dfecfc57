import Aomp.Foundations.PercentCode
import Aomp.Foundations.StdString

/-!
# Code object locators

`decodeUriAndGetFd` takes a file URI of a loaded code object apart: the path, with its escapes
decoded, and the range of the file. Positions are of type `size_t` and wrap.
-/
namespace Aomp.Sanitizer

open Foundations Foundations.StdString

/-- A difference of type `size_t`. -/
def sizeSub (a b : ℕ) : ℕ := (a + 2 ^ 64 - b) % 2 ^ 64

/-- What ends the decoding: an exception of the library, or a read outside of the string. -/
inductive UriFailure
  | exception (e : StdException)
  | outside
  deriving DecidableEq

def isalnum (cur : Byte) : Bool :=
  (48 ≤ cur.toNat && cur.toNat ≤ 57) || (65 ≤ cur.toNat && cur.toNat ≤ 90) ||
    (97 ≤ cur.toNat && cur.toNat ≤ 122)

/-- The characters that the decoder copies: `/`, `-`, `_`, `.`, `~` and those of `isalnum`. -/
def isCopied (cur : Byte) : Bool :=
  isalnum cur || cur = 47 || cur = 45 || cur = 95 || cur = 46 || cur = 126

/-- The value of a hexadecimal digit. A `char` is signed. -/
def hexBits (bits : Byte) : Byte := if bits.toInt < 58 then bits - 48 else (bits - 65) + 10

def decodeEscape (tbits lbits : Byte) : Byte :=
  let t := hexBits tbits
  let l := hexBits lbits
  ((0b00000000 ||| t) <<< 4) ||| l

/-- The loop over the positions from `i` up to `rspos`. -/
def decodeFilepath (uriPath : List Byte) (rspos i : ℕ) : Except UriFailure (List Byte) :=
  if i ≤ rspos then
    match uriPath[i]? with
    | none => .error .outside
    | some cur =>
      if isCopied cur then (decodeFilepath uriPath rspos (i + 1)).map (cur :: ·)
      else
        -- characters prefix with '%' char
        match uriPath[i + 1]?, uriPath[i + 2]? with
        | some tbits, some lbits =>
          (decodeFilepath uriPath rspos (i + 3)).map (decodeEscape tbits lbits :: ·)
        | _, _ => .error .outside
  else .ok []
termination_by rspos + 1 - i

def parseRange (uriPath : List Byte) (rspos : ℕ) : Except StdException (ℕ × ℕ × ℕ) :=
  if rspos ≠ npos then do
    let offprefix := ascii "offset="
    let sizeprefix := ascii "size="
    let sbeg := find uriPath (ascii "&") rspos
    let offbeg := (rspos + offprefix.length + 1) % 2 ^ 64
    let offstr ← substr uriPath offbeg (sizeSub sbeg offbeg)
    let sizebeg := (sbeg + sizeprefix.length + 1) % 2 ^ 64
    let sizestr ← substr uriPath sizebeg (sizeSub uriPath.length sizebeg)
    let offset ← stoull offstr
    let size ← stoull sizestr
    return (offset, size, sizeSub rspos 1)
  else return (0, 0, sizeSub uriPath.length 1)

/-- `decodeUriAndGetFd`: the path that is left in `uri`, and the offset with the size. `fd_size`
is the size that `GetFileHandle` finds for the file of a name. -/
def decodeUriAndGetFd (fd_size : List Byte → ℕ) (uriPath : List Byte) :
    Except UriFailure (List Byte × ℕ × ℕ) :=
  if uriPath.length = 0 then .ok (uriPath, 0, 0)
  else do
    let pos := find uriPath (ascii "//") 0
    let scheme ← (substr uriPath 0 pos).mapError .exception
    if pos = npos ∨ scheme ≠ ascii "file:" then return ([], 0, 0)
    else
      let (offset, size, rspos) ← (parseRange uriPath (find uriPath (ascii "#") 0)).mapError .exception
      let path ← decodeFilepath uriPath rspos (pos + 2)
      let size := if size = 0 then fd_size (path.takeWhile (· ≠ 0)) else size
      return (path, offset, size)

def pathCharacters : List Byte :=
  ascii "abcdefghijklmnopqrstuvwxyzABCDEFGHIJKLMNOPQRSTUVWXYZ0123456789/_.~-"

/-- The locator of a whole file. -/
def fileUri (path : List Byte) : List Byte :=
  ascii "file://" ++ PercentCode.encode (pathCharacters.contains ·) path

/-- The locator of a part of a file. -/
def rangeUri (path o s : List Byte) : List Byte :=
  fileUri path ++ ascii "#offset=" ++ o ++ ascii "&size=" ++ s

theorem isCopied_eq_contains : ∀ cur : Byte, isCopied cur = pathCharacters.contains cur := by
  decide +kernel

theorem decodeEscape_inverse : PercentCode.Inverse isCopied decodeEscape where
  percent := by decide
  pair := by decide +kernel

variable {path o s uriPath seg a b : List Byte} {cur : Byte} {offset size rspos i : ℕ}
  {fd_size : List Byte → ℕ}

theorem fileUri_eq (path : List Byte) :
    fileUri path = ascii "file://" ++ PercentCode.encode isCopied path := by
  rw [fileUri, ← funext isCopied_eq_contains]

theorem decodeFilepath_done (h : rspos + 1 = i) : decodeFilepath uriPath rspos i = .ok [] := by
  unfold decodeFilepath
  exact if_neg (by omega)

theorem decodeFilepath_copied (hi : i ≤ rspos) (hcur : uriPath[i]? = some cur)
    (hcopied : isCopied cur = true) : decodeFilepath uriPath rspos i =
      (decodeFilepath uriPath rspos (i + 1)).map (cur :: ·) := by
  rw [decodeFilepath, if_pos hi, hcur]
  exact if_pos hcopied

theorem decodeFilepath_escape {tbits lbits : Byte} (hi : i ≤ rspos) (hcur : uriPath[i]? = some cur)
    (hcopied : isCopied cur = false) (ht : uriPath[i + 1]? = some tbits)
    (hl : uriPath[i + 2]? = some lbits) : decodeFilepath uriPath rspos i =
      (decodeFilepath uriPath rspos (i + 3)).map (decodeEscape tbits lbits :: ·) := by
  rw [decodeFilepath, if_pos hi, hcur]
  dsimp only
  rw [hcopied, ht, hl]
  rfl

/-- The loop decodes the part of the string that ends at `rspos`, and reads nothing else. -/
theorem decodeFilepath_eq (hrspos : rspos + 1 = a.length + seg.length)
    (h : PercentCode.decode isCopied decodeEscape seg = some path) :
    decodeFilepath (a ++ (seg ++ b)) rspos a.length = .ok path := by
  induction hn : seg.length using Nat.strong_induction_on generalizing seg a path with
  | h n ih =>
    cases seg with
    | nil =>
      cases h
      exact decodeFilepath_done hrspos
    | cons c cs =>
      rw [List.length_cons] at hrspos hn
      have hcur : (a ++ (c :: cs ++ b))[a.length]? = some c := by simp
      by_cases hc : isCopied c = true
      · rw [PercentCode.decode_plain hc, Option.map_eq_some_iff] at h
        obtain ⟨path, h, rfl⟩ := h
        have hrest := ih cs.length (by omega) (a := a ++ [c]) (by simp; omega) h rfl
        rw [List.append_assoc, List.singleton_append, List.length_append, List.length_singleton] at hrest
        rw [decodeFilepath_copied (by omega) hcur hc, List.cons_append, hrest]
        rfl
      · have hescape : isCopied c = false := by simpa using hc
        rcases cs with _ | ⟨t, _ | ⟨l, rest⟩⟩
        · simp [PercentCode.decode, hescape] at h
        · simp [PercentCode.decode, hescape] at h
        · rw [PercentCode.decode_escape hescape, Option.map_eq_some_iff] at h
          obtain ⟨path, h, rfl⟩ := h
          simp only [List.length_cons] at hrspos hn
          have hrest := ih rest.length (by omega) (a := a ++ [c, t, l]) (by simp; omega) h rfl
          rw [List.append_assoc, List.length_append] at hrest
          have ht : (a ++ (c :: t :: l :: rest ++ b))[a.length + 1]? = some t := by simp
          have hl : (a ++ (c :: t :: l :: rest ++ b))[a.length + 2]? = some l := by simp
          rw [decodeFilepath_escape (by omega) hcur hescape ht hl]
          exact congrArg (Except.map (decodeEscape t l :: ·)) hrest

theorem sizeSub_eq (hle : i ≤ rspos) (hlt : rspos < 2 ^ 64) : sizeSub rspos i = rspos - i := by
  unfold sizeSub
  omega

theorem scheme_length : (ascii "file://").length = 7 := rfl

theorem find_slashes (s : List Byte) : find (ascii "file://" ++ s) (ascii "//") 0 = 5 := by
  refine find_eq_of_first ?_ (Nat.zero_le 5) ⟨s, rfl⟩ fun j _ hj hfound => ?_
  · rw [List.length_append, scheme_length]
    omega
  · interval_cases j <;> exact absurd hfound (by simp [ascii, List.cons_prefix_cons])

theorem not_mem_fileUri {c : Byte} (hscheme : c ∉ ascii "file://") (hc : isCopied c = false)
    (hpercent : c ≠ PercentCode.percent) (hdigit : ∀ n < 16, c ≠ PercentCode.hexDigit n) :
    c ∉ fileUri path := by
  rw [fileUri_eq, List.mem_append, not_or]
  exact ⟨hscheme, PercentCode.not_mem_encode hc hpercent hdigit path⟩

theorem hash_not_mem_fileUri (path : List Byte) : (35 : Byte) ∉ fileUri path :=
  not_mem_fileUri (by decide) (by decide) (by decide) (by decide)

theorem length_le_fileUri (path : List Byte) : 7 ≤ (fileUri path).length := by
  rw [fileUri, List.length_append, scheme_length]
  omega

theorem parseRange_fileUri (h : (fileUri path).length < npos) :
    parseRange (fileUri path) (find (fileUri path) (ascii "#") 0) =
      .ok (0, 0, (fileUri path).length - 1) := by
  have hlength := length_le_fileUri path
  have hhash : find (fileUri path) (ascii "#") 0 = npos := find_char_npos (hash_not_mem_fileUri path)
  rw [hhash, parseRange, if_neg (not_not_intro rfl), sizeSub_eq (by omega) (by unfold npos at h; omega)]
  rfl

theorem length_rangeUri (path o s : List Byte) :
    (rangeUri path o s).length = (fileUri path).length + 8 + o.length + 6 + s.length := by
  rw [rangeUri, List.length_append, List.length_append, List.length_append, List.length_append]
  rfl

theorem find_hash_rangeUri (path o s : List Byte) :
    find (rangeUri path o s) (ascii "#") 0 = (fileUri path).length := by
  have hsplit : rangeUri path o s =
      fileUri path ++ 35 :: (ascii "offset=" ++ (o ++ (ascii "&size=" ++ s))) := by
    simp [rangeUri, ascii]
  rw [hsplit]
  exact find_char (Nat.zero_le _) (hash_not_mem_fileUri path)

theorem find_and_rangeUri (ho : Writes o offset) (path s : List Byte) :
    find (rangeUri path o s) (ascii "&") (fileUri path).length =
      (fileUri path).length + 8 + o.length := by
  have hsplit : rangeUri path o s =
      (fileUri path ++ (ascii "#offset=" ++ o)) ++ 38 :: (ascii "size=" ++ s) := by
    simp [rangeUri, ascii]
  have hnot : (38 : Byte) ∉ (fileUri path ++ (ascii "#offset=" ++ o)).drop (fileUri path).length := by
    rw [List.drop_left, List.mem_append, not_or]
    exact ⟨by decide, ho.not_mem (by decide) (by decide)⟩
  rw [hsplit, show ascii "&" = [38] from rfl, find_char (by simp) hnot, List.length_append,
    List.length_append, ← add_assoc]
  rfl

theorem substr_offset (path o s : List Byte) :
    substr (rangeUri path o s) ((fileUri path).length + 8) o.length = .ok o := by
  have hsplit : rangeUri path o s =
      (fileUri path ++ ascii "#offset=") ++ (o ++ (ascii "&size=" ++ s)) := by
    simp [rangeUri]
  have hlength : (fileUri path ++ ascii "#offset=").length = (fileUri path).length + 8 :=
    List.length_append
  rw [hsplit, ← hlength]
  exact substr_append _ _ _

theorem substr_size (path o s : List Byte) :
    substr (rangeUri path o s) ((fileUri path).length + 8 + o.length + 6) s.length = .ok s := by
  have hlength : (fileUri path ++ ascii "#offset=" ++ o ++ ascii "&size=").length =
      (fileUri path).length + 8 + o.length + 6 := by
    rw [List.length_append, List.length_append, List.length_append]
    rfl
  rw [rangeUri, ← hlength]
  exact substr_append_right _ _ le_rfl

/-- The range specifier is found where it was written. -/
theorem parseRange_rangeUri (ho : Writes o offset) (hs : Writes s size) (hoffset : offset < 2 ^ 64)
    (hsize : size < 2 ^ 64) (h : (rangeUri path o s).length < npos) :
    parseRange (rangeUri path o s) (find (rangeUri path o s) (ascii "#") 0) =
      .ok (offset, size, (fileUri path).length - 1) := by
  have hpath := length_le_fileUri path
  have htotal := length_rangeUri path o s
  have hlimit : (rangeUri path o s).length < 2 ^ 64 - 1 := h
  have hne : (fileUri path).length ≠ npos := by unfold npos; omega
  have hoffbeg : ((fileUri path).length + (ascii "offset=").length + 1) % 2 ^ 64 =
      (fileUri path).length + 8 := Nat.mod_eq_of_lt (show (fileUri path).length + 8 < _ by omega)
  have hsizebeg : ((fileUri path).length + 8 + o.length + (ascii "size=").length + 1) % 2 ^ 64 =
      (fileUri path).length + 8 + o.length + 6 :=
    Nat.mod_eq_of_lt (show (fileUri path).length + 8 + o.length + 6 < _ by omega)
  have hoffcount : sizeSub ((fileUri path).length + 8 + o.length) ((fileUri path).length + 8) =
      o.length := by
    rw [sizeSub_eq (by omega) (by omega)]
    omega
  have hsizecount : sizeSub (rangeUri path o s).length ((fileUri path).length + 8 + o.length + 6) =
      s.length := by
    rw [sizeSub_eq (by omega) (by omega)]
    omega
  have hlast : sizeSub (fileUri path).length 1 = (fileUri path).length - 1 :=
    sizeSub_eq (by omega) (by omega)
  rw [find_hash_rangeUri, parseRange, if_pos hne]
  dsimp only
  rw [find_and_rangeUri ho, hoffbeg, hoffcount, substr_offset, hsizebeg, hsizecount, hlast]
  change (substr _ _ _ >>= _) = _
  rw [substr_size]
  change (stoull o >>= _) = _
  rw [stoull_of_writes ho hoffset]
  change (stoull s >>= _) = _
  rw [stoull_of_writes hs hsize]
  rfl

theorem decodeUriAndGetFd_eq {rest : List Byte} (hrange : parseRange (fileUri path ++ rest)
      (find (fileUri path ++ rest) (ascii "#") 0) = .ok (offset, size, (fileUri path).length - 1)) :
    decodeUriAndGetFd fd_size (fileUri path ++ rest) =
      .ok (path, offset, if size = 0 then fd_size (path.takeWhile (· ≠ 0)) else size) := by
  have hne : (fileUri path ++ rest).length ≠ 0 := by
    have hpath := length_le_fileUri path
    rw [List.length_append]
    omega
  have hslashes : find (fileUri path ++ rest) (ascii "//") 0 = 5 := by
    rw [fileUri, List.append_assoc]
    exact find_slashes _
  have hscheme : substr (fileUri path ++ rest) 0 5 = .ok (ascii "file:") := by
    rw [fileUri, List.append_assoc]
    exact substr_append [] (ascii "file:") _
  have hpath : decodeFilepath (fileUri path ++ rest) ((fileUri path).length - 1) 7 = .ok path := by
    have hdecode := PercentCode.decode_encode decodeEscape_inverse path
    rw [fileUri_eq, List.append_assoc]
    apply decodeFilepath_eq ?_ hdecode
    rw [List.length_append, scheme_length]
    omega
  rw [decodeUriAndGetFd, if_neg hne]
  dsimp only
  rw [hslashes, hscheme, hrange]
  change (decodeFilepath _ _ 7 >>= _) = _
  rw [hpath]
  rfl

/-- A locator is decoded to the path, the offset and the size that were encoded, and one without
a range to the path and offset 0. No character outside of the string is read. -/
theorem uri_round_trip (fd_size : List Byte → ℕ) (path o s : List Byte) (offset size : ℕ)
    (ho : Writes o offset) (hs : Writes s size) (hoffset : offset < 2 ^ 64) (hpos : 0 < size)
    (hsize : size < 2 ^ 64) (hlength : (rangeUri path o s).length < npos) :
    decodeUriAndGetFd fd_size (rangeUri path o s) = .ok (path, offset, size) ∧
      decodeUriAndGetFd fd_size (fileUri path) = .ok (path, 0, fd_size (path.takeWhile (· ≠ 0))) := by
  have htotal := length_rangeUri path o s
  constructor
  · have hsplit : rangeUri path o s =
        fileUri path ++ (ascii "#offset=" ++ o ++ ascii "&size=" ++ s) := by
      simp [rangeUri]
    have hrange := parseRange_rangeUri ho hs hoffset hsize hlength
    rw [hsplit] at hrange ⊢
    rw [decodeUriAndGetFd_eq hrange, if_neg hpos.ne']
  · have hnil : fileUri path ++ [] = fileUri path := List.append_nil _
    have hrange : parseRange (fileUri path ++ []) (find (fileUri path ++ []) (ascii "#") 0) =
        .ok (0, 0, (fileUri path).length - 1) := by
      rw [hnil]
      exact parseRange_fileUri (by omega)
    have hdecode := @decodeUriAndGetFd_eq path 0 0 fd_size [] hrange
    rwa [hnil, if_pos rfl] at hdecode

/-- The path `/a b` with the range from 0x10 on. -/
theorem uri_round_trip_space :
    decodeUriAndGetFd (fun _ => 0) (rangeUri (ascii "/a b") (ascii "0x10") (ascii "20")) =
        .ok (ascii "/a b", 16, 20) ∧
      decodeUriAndGetFd (fun _ => 0) (fileUri (ascii "/a b")) = .ok (ascii "/a b", 0, 0) :=
  uri_round_trip (fun _ => 0) (ascii "/a b") (ascii "0x10") (ascii "20") 16 20
    (.hexadecimal (ascii "10") (by decide) (by decide)) (.decimal (ascii "20") (by decide) (by decide)
    (by decide)) (by norm_num) (by norm_num) (by norm_num) (by decide)

end Aomp.Sanitizer
