import Mathlib.Data.List.Basic

/-!
# The JSON encoder

`json_obj_encode` of `json.c`, as the token builder uses it: an object of primitive fields, written
piece by piece through a callback. A descriptor and the member it points at are one field of the
list `fields`. Return codes are those of the source, negative for an error.

The encoder passes on the pieces of a text and stops at the first error of the callback. With a
callback that reports none it passes on all of them, in their order (`jsonObjEncode_eq`).
-/

namespace Tfm.Jwt

/-- `json_append_bytes_t`, with the data that its `void *` argument points at. -/
abbrev JsonAppendBytes (σ : Type) : Type := List UInt8 → σ → Int × σ

/-- The value of a field with a primitive descriptor. A string is given up to its terminator. -/
inductive JsonValue where
  | bool (value : Bool)
  | string (str : List UInt8)
  | number (num : Int32)
  deriving DecidableEq

/-- Name and value of a field. -/
abbrev JsonField : Type := List UInt8 × JsonValue

/-- The bytes of a text. -/
def ascii (text : List Char) : List UInt8 := text.map fun c => c.toNat.toUInt8

/-- `ENOMEM`. -/
def enomem : Int := 12

/-! ## The pieces of text

What is passed on in one call of the callback. -/

/-- `escape_as`: the letter behind the backslash, or zero. -/
def escapeAs (chr : UInt8) : UInt8 :=
  if chr = 34 then 34
  else if chr = 92 then 92
  else if chr = 8 then 98
  else if chr = 12 then 102
  else if chr = 10 then 110
  else if chr = 13 then 114
  else if chr = 9 then 116
  else 0

/-- What `json_escape_internal` passes on for one character. -/
def escaped (chr : UInt8) : List UInt8 := if escapeAs chr ≠ 0 then [92, escapeAs chr] else [chr]

/-- The digits that `snprintf` writes for `%d`. -/
def decimal (num : Int) : List UInt8 :=
  if num < 0 then ascii ('-' :: Nat.toDigits 10 num.natAbs) else ascii (Nat.toDigits 10 num.natAbs)

variable {σ : Type} (appendBytes : JsonAppendBytes σ)

/-! ## Encoding

The functions of the source, with an error of the callback passed through. -/

/-- The loop of `json_escape_internal`, entered with its `ret`. It ends at the terminator of the
string, or with the first result of the callback that is not zero. -/
def jsonEscapeInternal : List UInt8 → Int → σ → Int × σ
  | [], ret, data => (ret, data)
  | cur :: str, ret, data =>
    if ret = 0 ∧ cur ≠ 0 then
      let o := appendBytes (escaped cur) data
      jsonEscapeInternal str o.1 o.2
    else (ret, data)

/-- A string between quotes. -/
def strEncode (str : List UInt8) (data : σ) : Int × σ :=
  let o := appendBytes [34] data
  if o.1 < 0 then o
  else
    let o := jsonEscapeInternal appendBytes str 0 o.2
    if o.1 = 0 then appendBytes [34] o.2 else o

/-- The text has to fit into a buffer of twelve bytes, with its terminator. -/
def numEncode (num : Int32) (data : σ) : Int × σ :=
  let buf := decimal num.toInt
  if buf.length ≥ 12 then (-enomem, data) else appendBytes buf data

/-- A truth value as a word. -/
def boolEncode (value : Bool) (data : σ) : Int × σ :=
  appendBytes (if value then ascii ['t', 'r', 'u', 'e'] else ascii ['f', 'a', 'l', 's', 'e']) data

/-- A value of any primitive kind. -/
def encode (value : JsonValue) (data : σ) : Int × σ :=
  match value with
  | .bool value => boolEncode appendBytes value data
  | .string str => strEncode appendBytes str data
  | .number num => numEncode appendBytes num data

/-- The loop of `json_obj_encode` over the fields. -/
def encodeFields : List JsonField → σ → Int × σ
  | [], data => (0, data)
  | field :: fields, data =>
    let o := strEncode appendBytes field.1 data
    if o.1 < 0 then o
    else
      let o := appendBytes [58] o.2
      if o.1 < 0 then o
      else
        let o := encode appendBytes field.2 o.2
        if o.1 < 0 then o
        else if fields = [] then (0, o.2)
        else
          let o := appendBytes [44] o.2
          if o.1 < 0 then o else encodeFields fields o.2

/-- The fields between braces. -/
def jsonObjEncode (fields : List JsonField) (data : σ) : Int × σ :=
  let o := appendBytes [123] data
  if o.1 < 0 then o
  else
    let o := encodeFields appendBytes fields o.2
    if o.1 < 0 then o else appendBytes [125] o.2

/-! ## The text of an object

The pieces as data, independent of the callback. -/

/-- The pieces of an escaped string between its quotes. -/
def strPieces (str : List UInt8) : List (List UInt8) :=
  [34] :: (str.takeWhile (· ≠ 0)).map escaped ++ [[34]]

/-- The pieces of a value. -/
def valuePieces : JsonValue → List (List UInt8)
  | .bool value => [if value then ascii ['t', 'r', 'u', 'e'] else ascii ['f', 'a', 'l', 's', 'e']]
  | .string str => strPieces str
  | .number num => [decimal num.toInt]

/-- The pieces of a field: name, colon and value. -/
def fieldPieces (field : JsonField) : List (List UInt8) :=
  strPieces field.1 ++ [58] :: valuePieces field.2

/-- The fields, with commas between them. -/
def fieldsPieces : List JsonField → List (List UInt8)
  | [] => []
  | field :: fields =>
    fieldPieces field ++ if fields = [] then [] else [44] :: fieldsPieces fields

/-- All pieces that the encoder passes to its callback. -/
def objPieces (fields : List JsonField) : List (List UInt8) :=
  [123] :: fieldsPieces fields ++ [[125]]

/-- The data after the callback was given some pieces. -/
def appendAll (pieces : List (List UInt8)) (data : σ) : σ :=
  pieces.foldl (fun data piece => (appendBytes piece data).2) data

variable {appendBytes}

theorem appendAll_append (pieces pieces' : List (List UInt8)) (data : σ) :
    appendAll appendBytes (pieces ++ pieces') data
      = appendAll appendBytes pieces' (appendAll appendBytes pieces data) := by
  rw [appendAll, List.foldl_append]
  rfl

section Takes

variable (htakes : ∀ bytes data, (appendBytes bytes data).1 = 0)
include htakes

/-- A callback that takes everything. -/
theorem appendBytes_eq (bytes : List UInt8) (data : σ) :
    appendBytes bytes data = (0, appendAll appendBytes [bytes] data) :=
  Prod.ext (htakes bytes data) rfl

/-- All characters up to the terminator are passed on. -/
theorem jsonEscapeInternal_eq (str : List UInt8) (data : σ) :
    jsonEscapeInternal appendBytes str 0 data
      = (0, appendAll appendBytes ((str.takeWhile (· ≠ 0)).map escaped) data) := by
  induction str generalizing data with
  | nil => rfl
  | cons cur str ih =>
    rw [jsonEscapeInternal]
    by_cases hcur : cur = 0
    · simp [hcur, appendAll]
    · rw [if_pos ⟨rfl, hcur⟩]
      simp only [htakes, ih, List.takeWhile_cons, ne_eq, hcur, not_false_eq_true, decide_true, if_true]
      rfl

/-- A string is passed on with its quotes. -/
theorem strEncode_eq (str : List UInt8) (data : σ) :
    strEncode appendBytes str data = (0, appendAll appendBytes (strPieces str) data) := by
  simp only [strEncode, appendBytes_eq htakes, Int.lt_irrefl, if_false, jsonEscapeInternal_eq htakes,
    if_true]
  rw [← appendAll_append, ← appendAll_append]
  rfl

omit htakes in
/-- No 32-bit number is too long for the buffer. -/
theorem length_decimal_lt (num : Int32) : (decimal num.toInt).length < 12 := by
  have hlt : num.toInt.natAbs < 10 ^ 10 := by
    have h1 := num.le_toInt
    have h2 := num.toInt_lt
    omega
  have hlen := (Nat.length_toDigits_le_iff (by decide) (by decide)).mpr hlt
  unfold decimal ascii
  split <;> simp only [List.length_map, List.length_cons] <;> omega

theorem encode_eq (value : JsonValue) (data : σ) :
    encode appendBytes value data = (0, appendAll appendBytes (valuePieces value) data) := by
  cases value with
  | bool value => exact appendBytes_eq htakes _ _
  | string str => exact strEncode_eq htakes str data
  | number num =>
    simp only [encode, numEncode]
    rw [if_neg (by have := length_decimal_lt num; omega)]
    exact appendBytes_eq htakes _ _

/-- All fields are passed on, with commas between them. -/
theorem encodeFields_eq (fields : List JsonField) (data : σ) :
    encodeFields appendBytes fields data
      = (0, appendAll appendBytes (fieldsPieces fields) data) := by
  -- on the fields; the last one has no comma behind it
  induction fields generalizing data with
  | nil => rfl
  | cons field fields ih =>
    have hfield : appendAll appendBytes (fieldPieces field) data
        = appendAll appendBytes (valuePieces field.2)
          (appendAll appendBytes [[58]] (appendAll appendBytes (strPieces field.1) data)) := by
      rw [fieldPieces, List.append_cons, appendAll_append, appendAll_append]
    simp only [encodeFields, strEncode_eq htakes, appendBytes_eq htakes, encode_eq htakes,
      Int.lt_irrefl, if_false, ih, fieldsPieces]
    rw [← hfield, appendAll_append]
    split
    · rfl
    · rfl

/-- The encoder passes the pieces of the object in their order, and reports no error. -/
theorem jsonObjEncode_eq (fields : List JsonField) (data : σ) :
    jsonObjEncode appendBytes fields data = (0, appendAll appendBytes (objPieces fields) data) := by
  simp only [jsonObjEncode, appendBytes_eq htakes, Int.lt_irrefl, if_false, encodeFields_eq htakes]
  rw [← appendAll_append, ← appendAll_append]
  rfl

end Takes

end Tfm.Jwt
