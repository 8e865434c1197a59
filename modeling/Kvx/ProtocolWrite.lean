import Kvx.ProtocolScan

/-!
# The response writers

A writer checks its arguments, then copies its parts one after the other. A write past
the end of the destination, or before the start of the scratch space, is a fault.
-/
namespace Kvx.Protocol

open Kvx.Lib

/-- A pointer and a length. `NULL` can be passed with any length. -/
inductive Slice
  | null (len : ℕ)
  | bytes (data : List UInt8)
  deriving DecidableEq, Repr

def Slice.len : Slice → ℕ
  | .null len => len
  | .bytes data => data.length

def Slice.data : Slice → List UInt8
  | .null _ => []
  | .bytes data => data

def Slice.isNull : Slice → Bool
  | .null _ => true
  | .bytes _ => false

@[simp] theorem Slice.len_bytes (data : List UInt8) : (Slice.bytes data).len = data.length := rfl

@[simp] theorem Slice.data_bytes (data : List UInt8) : (Slice.bytes data).data = data := rfl

@[simp] theorem Slice.isNull_bytes (data : List UInt8) : (Slice.bytes data).isNull = false := rfl

/-- `proto_format_uint`, where `room` bytes are left before `end` and `text` follows it. -/
def protoFormatUint : ℕ → ℕ → List UInt8 → Parse (List UInt8)
  | 0, _, _ => .fault
  | room + 1, value, text =>
      let text := UInt8.ofNat (48 + value % 10) :: text
      if value / 10 ≠ 0 then protoFormatUint room (value / 10) text else .ok text

/-- `memcpy(p, bytes, len)` and `p += len`, with `p` as an offset. -/
def put (w : List UInt8 × ℕ) (bytes : List UInt8) : Parse (List UInt8 × ℕ) := do
  let b ← writeSlice w.1 w.2 bytes
  .ok (b, w.2 + bytes.length)

/-- The copies of `protocol_write_get_result`. -/
def putGetResult (dst key flagsText lengthText : List UInt8) (value : Slice) :
    Parse (List UInt8 × ℕ) := do
  let w ← put (dst, 0) (text ['V', 'A', 'L', 'U', 'E', ' '])
  let w ← put w key
  let w ← put w [space]
  let w ← put w flagsText
  let w ← put w [space]
  let w ← put w lengthText
  let w ← put w [cr, lf]
  let w ← (if value.len ≠ 0 then put w value.data else .ok w)
  put w [cr, lf]

/-- `protocol_write_get_result` up to its outputs: the destination after the call, and the
count. -/
def writeGetResult (b key : Slice) (flags : UInt32) (value : Slice) : Parse (List UInt8 × ℕ) :=
  if key.isNull ∨ key.len = 0 ∨ (value.isNull ∧ value.len ≠ 0) then .error .invalidArguments
  else if key.len > protoMaxKeyLength then .error .keyTooLong
  else do
    let flagsText ← protoFormatUint 10 flags.toNat []
    let lengthText ← protoFormatUint 24 value.len []
    let headerLen := 6 + key.len + 1 + flagsText.length + 1 + lengthText.length + 2
    if value.len > sizeMax - headerLen - 2 then .error .invalidValueLength
    else
      let total := headerLen + value.len + 2
      if b.len < total then .error .bufferTooSmall
      else if b.isNull then .error .invalidArguments
      else do
        let w ← putGetResult b.data key.data flagsText lengthText value
        .ok (w.1, total)

/-- `proto_write_bytes` up to its outputs. -/
def writeBytes (b : Slice) (bytes : List UInt8) : Parse (List UInt8 × ℕ) :=
  if b.len < bytes.length then .error .bufferTooSmall
  else if b.isNull then .error .invalidArguments
  else put (b.data, 0) bytes

/-- The code, the destination and the count after a call. `none`: an access was out of bounds. -/
def written (b : Slice) : Parse (List UInt8 × ℕ) → Option (ProtoCode × Slice × ℕ)
  | .ok (dst, n) => some (.ok, .bytes dst, n)
  | .error err => some (.err err, b, 0)
  | .fault => none

def protocolWriteGetResult (b key : Slice) (flags : UInt32) (value : Slice) :
    Option (ProtoCode × Slice × ℕ) := written b (writeGetResult b key flags value)

def protoWriteBytes (b : Slice) (bytes : List UInt8) : Option (ProtoCode × Slice × ℕ) :=
  written b (writeBytes b bytes)

def endText : List UInt8 := text ['E', 'N', 'D'] ++ [cr, lf]

def protocolWriteGetEnd (b : Slice) : Option (ProtoCode × Slice × ℕ) := protoWriteBytes b endText

/-- The decimal digits of a number, without leading zeros. -/
def decimalText (value : ℕ) : List UInt8 :=
  if value < 10 then [UInt8.ofNat (48 + value % 10)]
  else decimalText (value / 10) ++ [UInt8.ofNat (48 + value % 10)]

theorem digit_toNat (value : ℕ) : (UInt8.ofNat (48 + value % 10)).toNat = 48 + value % 10 := by
  rw [UInt8.toNat_ofNat']
  omega

theorem isDigit_digit (value : ℕ) : IsDigit (UInt8.ofNat (48 + value % 10)) := by
  constructor <;> rw [UInt8.le_iff_toNat_le, digit_toNat]
  · exact Nat.le_add_right _ _
  · change _ ≤ 57
    omega

theorem decimalText_digits (value : ℕ) : Digits (decimalText value) := by
  induction value using decimalText.induct with
  | case1 value h =>
    rw [decimalText, if_pos h]
    intro ch hch
    rw [List.mem_singleton.mp hch]
    exact isDigit_digit value
  | case2 value h ih =>
    rw [decimalText, if_neg h]
    intro ch hch
    rcases List.mem_append.mp hch with hch | hch
    · exact ih ch hch
    · rw [List.mem_singleton.mp hch]
      exact isDigit_digit value

theorem decimalFrom_concat (value : ℕ) (s : List UInt8) (ch : UInt8) :
    decimalFrom value (s ++ [ch]) = decimalFrom value s * 10 + (ch.toNat - 48) := by
  rw [decimalFrom, List.foldl_append]
  rfl

theorem decimal_decimalText (value : ℕ) : decimal (decimalText value) = value := by
  induction value using decimalText.induct with
  | case1 value h =>
    rw [decimalText, if_pos h]
    change 0 * 10 + ((UInt8.ofNat (48 + value % 10)).toNat - 48) = value
    rw [digit_toNat]
    omega
  | case2 value h ih =>
    rw [decimalText, if_neg h, decimal, decimalFrom_concat, digit_toNat]
    rw [decimal] at ih
    omega

theorem decimalText_length_pos (value : ℕ) : 0 < (decimalText value).length := by
  rw [decimalText]
  split_ifs
  · exact Nat.one_pos
  · rw [List.length_append]
    exact Nat.succ_pos _

theorem decimalText_length_le {value k : ℕ} (hk : 0 < k) (h : value < 10 ^ k) :
    (decimalText value).length ≤ k := by
  induction k generalizing value with
  | zero => omega
  | succ k ih =>
    rw [decimalText]
    split_ifs with hlt
    · exact hk
    · have hkpos : 0 < k := by
        rcases Nat.eq_zero_or_pos k with rfl | hpos
        · omega
        · exact hpos
      rw [Nat.pow_succ] at h
      rw [List.length_append, List.length_singleton]
      exact Nat.succ_le_succ (ih hkpos (by omega))

/-- The scratch space holds every number of no more digits than it has bytes. -/
theorem protoFormatUint_eq (room value : ℕ) (text : List UInt8) :
    protoFormatUint room value text =
      if (decimalText value).length ≤ room then .ok (decimalText value ++ text) else .fault := by
  induction room generalizing value text with
  | zero =>
    rw [if_neg (not_le.mpr (decimalText_length_pos value))]
    rfl
  | succ room ih =>
    rw [protoFormatUint, decimalText]
    by_cases hlt : value < 10
    · rw [if_neg (by omega), if_pos hlt, List.length_singleton, if_pos (Nat.le_add_left 1 room)]
      rfl
    · rw [if_pos (by omega), if_neg hlt, ih, List.length_append, List.length_singleton,
        List.append_assoc]
      simp only [Nat.add_le_add_iff_right, List.singleton_append]

/-- `dst` after its first bytes were replaced by `done`, and the offset behind them. -/
def wrote (dst done : List UInt8) : List UInt8 × ℕ := (done ++ dst.drop done.length, done.length)

theorem put_wrote {dst done xs : List UInt8} (h : (done ++ xs).length ≤ dst.length) :
    put (wrote dst done) xs = .ok (wrote dst (done ++ xs)) := by
  rw [List.length_append] at h
  have hroom : xs.length ≤ (dst.drop done.length).length := by
    rw [List.length_drop]
    omega
  rw [put, wrote, writeSlice_append hroom, ok_bind, wrote, List.drop_drop, List.length_append]

/-- An entry of a response to `get`. -/
def getResultText (key : List UInt8) (flags : UInt32) (value : List UInt8) : List UInt8 :=
  text ['V', 'A', 'L', 'U', 'E', ' '] ++ key ++ [space] ++ decimalText flags.toNat ++ [space] ++
    decimalText value.length ++ [cr, lf] ++ value ++ [cr, lf]

theorem getResultText_length (key : List UInt8) (flags : UInt32) (value : List UInt8) :
    (getResultText key flags value).length = 6 + key.length + 1 +
      (decimalText flags.toNat).length + 1 + (decimalText value.length).length + 2 +
      value.length + 2 := by
  simp only [getResultText, text, List.length_append, List.length_map, List.length_cons,
    List.length_nil]

theorem Slice.length_data {s : Slice} (h : s.isNull → s.len = 0) : s.data.length = s.len := by
  cases s with
  | null len => exact (h rfl).symm
  | bytes data => rfl

theorem flagsText_length (flags : UInt32) : (decimalText flags.toNat).length ≤ 10 :=
  decimalText_length_le (by decide) (flags.toNat_lt.trans (by decide))

theorem lengthText_length {n : ℕ} (h : n ≤ sizeMax) : (decimalText n).length ≤ 24 :=
  decimalText_length_le (by decide) (Nat.lt_of_le_of_lt h (by decide))

theorem getResultText_length_le {key : List UInt8} (flags : UInt32) {value : List UInt8}
    (hkey : key.length ≤ 250) (hvalue : value.length ≤ sizeMax) :
    (getResultText key flags value).length ≤ 296 + value.length := by
  have hflags := flagsText_length flags
  have hlen := lengthText_length hvalue
  rw [getResultText_length]
  omega

theorem putGetResult_eq {dst key : List UInt8} {flags : UInt32} {value : Slice}
    (hvalue : value.isNull → value.len = 0)
    (hroom : (getResultText key flags value.data).length ≤ dst.length) :
    putGetResult dst key (decimalText flags.toNat) (decimalText value.len) value =
      .ok (wrote dst (getResultText key flags value.data)) := by
  have hdata := Slice.length_data hvalue
  have hstart : (dst, 0) = wrote dst [] := rfl
  have hcopy : ∀ done, (done ++ value.data).length ≤ dst.length →
      (if value.len ≠ 0 then put (wrote dst done) value.data else .ok (wrote dst done)) =
        .ok (wrote dst (done ++ value.data)) := by
    intro done hle
    by_cases hzero : value.len = 0
    · rw [if_neg (not_not.mpr hzero), List.eq_nil_of_length_eq_zero (hdata.trans hzero),
        List.append_nil]
    · rw [if_pos hzero, put_wrote hle]
  simp only [getResultText, List.length_append, hdata] at hroom ⊢
  unfold putGetResult
  rw [hstart, put_wrote, ok_bind, put_wrote, ok_bind, put_wrote, ok_bind, put_wrote, ok_bind,
    put_wrote, ok_bind, put_wrote, ok_bind, put_wrote, ok_bind, hcopy, ok_bind, put_wrote,
    List.nil_append]
  all_goals
    simp only [List.length_append, List.length_nil, hdata]
    omega

/-- An entry is written if its length is a `size_t` and the destination has room for it. -/
theorem writeGetResult_eq_ok {dst key : List UInt8} {flags : UInt32} {value : Slice}
    {r : List UInt8 × ℕ} (hpos : 1 ≤ key.length) (hmax : key.length ≤ 250)
    (hvalue : value.isNull → value.len = 0) :
    writeGetResult (.bytes dst) (.bytes key) flags value = .ok r ↔
      (getResultText key flags value.data).length ≤ sizeMax ∧
        (getResultText key flags value.data).length ≤ dst.length ∧
        r = wrote dst (getResultText key flags value.data) := by
  have hdata := Slice.length_data hvalue
  have hflags := flagsText_length flags
  have htotal := getResultText_length key flags value.data
  rw [hdata] at htotal
  have hargs : ¬ ((Slice.bytes key).isNull ∨ (Slice.bytes key).len = 0 ∨
      (value.isNull ∧ value.len ≠ 0)) := by
    rintro (hnull | hzero | ⟨hnull, hne⟩)
    · simp at hnull
    · rw [Slice.len_bytes] at hzero
      omega
    · exact hne (hvalue hnull)
  unfold writeGetResult
  rw [if_neg hargs, if_neg (by simp only [Slice.len_bytes, protoMaxKeyLength]; omega),
    protoFormatUint_eq, if_pos hflags, ok_bind, protoFormatUint_eq]
  simp only [List.append_nil, Slice.len_bytes, Slice.data_bytes, Slice.isNull_bytes]
  by_cases hlen : (decimalText value.len).length ≤ 24
  · rw [if_pos hlen, ok_bind, ← htotal]
    by_cases hsize : (getResultText key flags value.data).length ≤ sizeMax
    · rw [if_neg (by omega)]
      by_cases hroom : (getResultText key flags value.data).length ≤ dst.length
      · rw [if_neg (not_lt.mpr hroom), if_neg Bool.false_ne_true, putGetResult_eq hvalue hroom,
          ok_bind]
        simp only [Checked.ok.injEq, hsize, hroom, true_and]
        exact eq_comm
      · rw [if_pos (not_le.mp hroom)]
        simp [hroom]
    · have hmaxvalue : sizeMax = 18446744073709551615 := rfl
      rw [if_pos (by omega)]
      simp [hsize]
  · -- a length that no `size_t` can have
    rw [if_neg hlen, fault_bind]
    have hbig : ¬ (getResultText key flags value.data).length ≤ sizeMax :=
      fun hle => hlen (lengthText_length (by omega))
    simp [hbig]

theorem writeBytes_eq_ok {dst bytes : List UInt8} {r : List UInt8 × ℕ} :
    writeBytes (.bytes dst) bytes = .ok r ↔ bytes.length ≤ dst.length ∧ r = wrote dst bytes := by
  unfold writeBytes
  rw [Slice.len_bytes, Slice.isNull_bytes, Slice.data_bytes]
  by_cases hroom : bytes.length ≤ dst.length
  · have hput : put (wrote dst []) bytes = .ok (wrote dst ([] ++ bytes)) := put_wrote hroom
    change put (dst, 0) bytes = .ok (wrote dst bytes) at hput
    rw [if_neg (not_lt.mpr hroom), if_neg Bool.false_ne_true, hput]
    simp only [Checked.ok.injEq, hroom, true_and]
    exact eq_comm
  · rw [if_pos (not_le.mp hroom)]
    simp [hroom]

theorem written_eq_ok {b : Slice} {x : Parse (List UInt8 × ℕ)} {dst : List UInt8} {n : ℕ} :
    written b x = some (.ok, .bytes dst, n) ↔ x = .ok (dst, n) := by
  rcases x with ⟨dst', n'⟩ | err | _
  · simp [written]
  · simp [written]
  · simp [written]

theorem take_wrote (dst done : List UInt8) : (wrote dst done).1.take (wrote dst done).2 = done :=
  List.take_left

end Kvx.Protocol
