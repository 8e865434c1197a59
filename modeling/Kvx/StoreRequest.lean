import Kvx.CommandStream
import Kvx.ProtocolResponse
import Kvx.StoredLengths

/-!
# A request, the store and the response

A `set` that the parser accepts goes into the store, and what a lookup returns goes out
through the writer of `get` responses. The parser and the writer have 32 bits for the
flags, the store has 16: flags that need more come back as others.
-/
namespace Kvx.Store

open Kvx.Lib Kvx.Hashtable Kvx.Item Kvx.Protocol

variable {E : Env} {kv kv' : Kv} {M : EntryMap} {e : Entry}
  {b key flagsField bytesField value out : List UInt8}

/-- The buffer begins with a `set`: its key, the digits of its flags and of its length as the
client sent them, and its value. -/
inductive SetSent (b : List UInt8) :
    List UInt8 → List UInt8 → List UInt8 → List UInt8 → Prop
  | intro {line value rest : List UInt8} {name k f x n : Run} {more : List Run} :
      b = line ++ crlf ++ (value ++ crlf ++ rest) → NoBreak line →
      words line = name :: k :: f :: x :: n :: more → name.of line = commandName .set →
      SetSent b (k.of line) (f.of line) (n.of line) value

/-- What a caller sees of an accepted `set`. -/
structure SetSeen (seen : Seen) (key flagsField bytesField value : List UInt8) : Prop where
  seen_key : seen.key = some key
  seen_value : seen.value = some value
  key_ok : KeyOk key
  flags_ok : IsUint uint32Max flagsField
  seen_flags : seen.flags.toNat = decimal flagsField
  bytes_digits : Digits bytesField
  bytes : value.length = decimal bytesField

theorem slice_at {b : List UInt8} {pos len : ℕ} (h : pos + len ≤ b.length) :
    slice b (some pos) len = some (some ((b.drop pos).take len)) := by
  rw [slice, Net.loadBytes_eq h]
  rfl

theorem frame_set {cmd : Command} {n : ℕ} {seen : Seen} (h : Frame b cmd n)
    (htype : cmd.type = .set) (hsee : see b cmd = some seen) :
    ∃ key flagsField bytesField value, SetSent b key flagsField bytesField value ∧
      SetSeen seen key flagsField bytesField value := by
  cases h with
  | line _ _ hset => exact absurd htype hset
  | @data line data rest cmd hline hheader _ hdata hfits =>
    have hw := words_all_within line
    cases hheader with
    | get => simp at htype
    | delete => simp at htype
    | touch => simp at htype
    | version => simp at htype
    | quit => simp at htype
    | @set name k f x n more noreply hws hname hkey hflags hexp hbytes _ =>
      have hk := hw k (by simp [hws])
      have hkeyslice : slice (line ++ crlf ++ (data ++ crlf ++ rest)) (some k.start) k.len =
          some (some (k.of line)) := by
        rw [List.append_assoc, slice_at (by rw [List.length_append]; omega),
          List.drop_append_of_le_length (by omega),
          List.take_append_of_le_length (by rw [List.length_drop]; omega)]
        rfl
      have hvalueslice : slice (line ++ crlf ++ (data ++ crlf ++ rest)) (some (line.length + 2))
          (decimal (n.of line)) = some (some data) := by
        have hlen : (line ++ crlf).length = line.length + 2 := List.length_append
        have hdata' : data.length = decimal (n.of line) := hdata
        rw [slice_at (by simp only [List.length_append] at hlen ⊢; omega), ← hlen,
          List.drop_left, List.append_assoc, ← hdata', List.take_left]
      simp only [see, Option.getD_some, Nat.add_sub_cancel_left, hkeyslice, hvalueslice,
        Option.bind_eq_bind, Option.bind_some, Option.some.injEq] at hsee
      subst hsee
      refine ⟨_, _, _, data, .intro rfl hline hws hname, rfl, rfl, hkey, hflags, ?_, hbytes.2.1,
        hdata⟩
      exact UInt32.toNat_ofNat_of_lt' (Nat.lt_of_le_of_lt hflags.2.2 (by decide))

/-- An entry with these digits of the flags and of the length. -/
def valueLine (key flagsField bytesField value : List UInt8) : List UInt8 :=
  text ['V', 'A', 'L', 'U', 'E', ' '] ++ key ++ [space] ++ flagsField ++ [space] ++ bytesField ++
    crlf ++ value ++ crlf

/-- An entry for this key and value, with numbers that have the values of the fields. -/
def SameEntry (key flagsField bytesField value out : List UInt8) : Prop :=
  ∃ flagsOut bytesOut, out = valueLine key flagsOut bytesOut value ∧
    Digits flagsOut ∧ decimal flagsOut = decimal flagsField ∧
    Digits bytesOut ∧ decimal bytesOut = decimal bytesField

theorem sameEntry_iff {flags : UInt32} : SameEntry key flagsField bytesField value
    (getResultText key flags value) ↔
      flags.toNat = decimal flagsField ∧ value.length = decimal bytesField := by
  constructor
  · rintro ⟨flagsOut, bytesOut, hout, hflags, hflagsEq, hbytes, hbytesEq⟩
    simp only [getResultText, valueLine, crlf, List.append_assoc, List.append_cancel_left_eq,
      List.cons_append, List.nil_append, List.cons.injEq, true_and] at hout
    have hspace : ∀ {s : List UInt8}, Digits s → space ∉ s := fun h =>
      digits_not_mem h (by decide)
    have hcr : ∀ {s : List UInt8}, Digits s → cr ∉ s := fun h => digits_not_mem h (by decide)
    obtain ⟨rfl, hrest⟩ :=
      field_eq (hspace (decimalText_digits flags.toNat)) (hspace hflags) hout
    obtain ⟨rfl, -⟩ := field_eq (hcr (decimalText_digits value.length)) (hcr hbytes) hrest
    rw [decimal_decimalText] at hflagsEq hbytesEq
    exact ⟨hflagsEq, hbytesEq⟩
  · rintro ⟨hflags, hbytes⟩
    exact ⟨_, _, rfl, decimalText_digits _, (decimal_decimalText _).trans hflags,
      decimalText_digits _, (decimal_decimalText _).trans hbytes⟩

/-- What `kv_get` returns for the key, `protocol_write_get_result` writes as the entry that was
sent. No entry has a header of more than 296 bytes. -/
def Echoed (E : Env) (kv : Kv) (key flagsField bytesField value : List UInt8) : Prop :=
  ∀ dstLen dst, value.length ≤ dstLen → 296 + value.length ≤ dst.length →
    ∃ got flags stored dst' n, kvGet E kv key dstLen = some got ∧ got.code = .ok ∧
      got.flagsOut = some flags ∧ got.dst = some stored ∧
      protocolWriteGetResult (.bytes dst) (.bytes key) flags.toUInt32 (.bytes stored) =
        some (.ok, .bytes dst', n) ∧
      SameEntry key flagsField bytesField value (dst'.take n)

/-- A stored entry comes back with the flags and the length it is stored with. -/
theorem echoed_iff (h : KvInv E kv M) (hM : M key = some e) (hkey : KeyOk key) :
    Echoed E kv key flagsField bytesField e.value ↔
      e.flags.toNat = decimal flagsField ∧ e.value.length = decimal bytesField := by
  obtain ⟨p, -, hold⟩ := storedItem_entry h hM
  have hshort := hold.value_short
  have hsize : e.value.length ≤ sizeMax := hshort.le.trans (by decide)
  have hnull : (Slice.bytes e.value).isNull → (Slice.bytes e.value).len = 0 := by simp
  have hflags : e.flags.toUInt32.toNat = e.flags.toNat := UInt16.toNat_toUInt32 e.flags
  have hle := getResultText_length_le e.flags.toUInt32 hkey.2.1 hsize
  have hwrite : ∀ dst : List UInt8, 296 + e.value.length ≤ dst.length →
      protocolWriteGetResult (.bytes dst) (.bytes key) e.flags.toUInt32 (.bytes e.value) =
        some (.ok, .bytes (wrote dst (getResultText key e.flags.toUInt32 e.value)).1,
          (wrote dst (getResultText key e.flags.toUInt32 e.value)).2) :=
    fun dst hdst => written_eq_ok.mpr ((writeGetResult_eq_ok hkey.1 hkey.2.1 hnull).mpr
      ⟨hle.trans (by simp only [sizeMax]; omega), hle.trans hdst, rfl⟩)
  have hentry : SameEntry key flagsField bytesField e.value
      (getResultText key e.flags.toUInt32 e.value) ↔
        e.flags.toUInt32.toNat = decimal flagsField ∧ e.value.length = decimal bytesField :=
    sameEntry_iff
  rw [← hflags, ← hentry]
  constructor
  · intro hecho
    have hroom : 296 + e.value.length ≤
        (List.replicate (296 + e.value.length) (0 : UInt8)).length := by
      rw [List.length_replicate]
    obtain ⟨got, flags, stored, dst', n, hget, -, hgotFlags, hgotDst, hrun, hsame⟩ :=
      hecho e.value.length _ le_rfl hroom
    rw [kvGet_entry h hM le_rfl, Option.some.injEq] at hget
    subst hget
    obtain rfl := Option.some.inj hgotFlags
    obtain rfl := Option.some.inj hgotDst
    rw [hwrite _ hroom] at hrun
    simp only [Option.some.injEq, Prod.mk.injEq, Slice.bytes.injEq, true_and] at hrun
    obtain ⟨rfl, rfl⟩ := hrun
    rwa [take_wrote] at hsame
  · intro hsame dstLen dst hroom hdst
    refine ⟨gotEntry e, e.flags, e.value, _, _, kvGet_entry h hM hroom, rfl, rfl, rfl,
      hwrite dst hdst, ?_⟩
    rwa [take_wrote]

/-- The call of `kv_set` for a request: the flags are converted to its `uint16_t` parameter. -/
def kvSetSeen (E : Env) (granted : Bool) (kv : Kv) (seen : Seen) : Option (Kv × KvError) := do
  let key ← seen.key
  let value ← seen.value
  kvSet E granted kv key ⟨value, seen.flags.toUInt16, seen.exptime⟩

theorem narrow_flags_iff {flags : UInt32} {n : ℕ} (h : flags.toNat = n) :
    flags.toUInt16.toNat = n ↔ n < 2 ^ 16 := by
  rw [UInt32.toNat_toUInt16, h]
  omega

/-- The key and the value of a request are stored, and its flags cut to 16 bits. -/
theorem kvSetSeen_entry {seen : Seen} {granted : Bool} (h : KvInv E kv M)
    (hseen : SetSeen seen key flagsField bytesField value)
    (hrun : kvSetSeen E granted kv seen = some (kv', .ok)) :
    ∃ M', KvInv E kv' M' ∧ M' key = some ⟨value, seen.flags.toUInt16, seen.exptime⟩ := by
  simp only [kvSetSeen, hseen.seen_key, hseen.seen_value, Option.bind_eq_bind,
    Option.bind_some] at hrun
  have hkey : key.length < 256 ^ 2 := Nat.lt_of_le_of_lt hseen.key_ok.2.1 (by decide)
  obtain ⟨-, hinv⟩ | ⟨hcode, -⟩ := kvSet_returns h hkey hrun
  · exact ⟨_, hinv, Function.update_self _ _ _⟩
  · simp at hcode

theorem kvSetSeen_echoed {seen : Seen} {granted : Bool} (h : KvInv E kv M)
    (hseen : SetSeen seen key flagsField bytesField value)
    (hrun : kvSetSeen E granted kv seen = some (kv', .ok)) :
    Echoed E kv' key flagsField bytesField value ↔ decimal flagsField < 2 ^ 16 := by
  obtain ⟨M', hinv, hM'⟩ := kvSetSeen_entry h hseen hrun
  rw [echoed_iff hinv hM' hseen.key_ok, ← narrow_flags_iff hseen.seen_flags]
  exact and_iff_left hseen.bytes

theorem set_echoed_iff {cmd out : Command} {n : ℕ} {seen : Seen} {granted : Bool}
    (hparse : protocolParseCommand b cmd = some (.ok, out, n)) (htype : out.type = .set)
    (hsee : see b out = some seen) (h : NarrowReached E kv)
    (hrun : kvSetSeen E granted kv seen = some (kv', .ok)) :
    ∃ key flagsField bytesField value, SetSent b key flagsField bytesField value ∧
      seen.key = some key ∧ seen.value = some value ∧ seen.flags.toNat = decimal flagsField ∧
      (Echoed E kv' key flagsField bytesField value ↔ decimal flagsField < 2 ^ 16) := by
  obtain ⟨key, flagsField, bytesField, value, hsent, hseen⟩ :=
    frame_set (protocolParseCommand_frame hparse) htype hsee
  obtain ⟨M, hinv⟩ := h.inv
  exact ⟨key, flagsField, bytesField, value, hsent, hseen.seen_key, hseen.seen_value,
    hseen.seen_flags, kvSetSeen_echoed hinv hseen hrun⟩

/-- A request to store one byte, with the flags given. -/
def oneByteRequest (flagsDigits : List Char) : List UInt8 :=
  text (['s', 'e', 't', ' ', 'k', ' '] ++ flagsDigits ++ [' ', '0', ' ', '1']) ++ crlf ++
    text ['x'] ++ crlf

/-- What the parser makes of the request; its digits end at `flagsEnd`. -/
def oneByteCommand (flags : UInt32) (flagsEnd : ℕ) : Command where
  type := .set
  key := some 4
  keyLen := 1
  keysEnd := some 5
  value := some (flagsEnd + 6)
  valueLen := 1
  flags := flags

def oneByteSeen (flags : UInt32) : Seen where
  type := .set
  key := some [107]
  keys := some [107]
  value := some [120]
  flags := flags
  exptime := 0
  noreply := false

theorem oneByte_stored (h : KvInv E kv M) (flags : UInt32) :
    ∃ kv', kvSetSeen E true kv (oneByteSeen flags) = some (kv', .ok) := by
  have hfit : Fits [107] ⟨[120], flags.toUInt16, 0⟩ :=
    (show [(107 : UInt8)].length + [(120 : UInt8)].length ≤ 2 ^ 19 - 24 by decide)
  obtain ⟨kv', hrun, -⟩ := kvSet_fits h true hfit (Or.inl (Nat.succ_pos 1))
  exact ⟨kv', hrun⟩

theorem set_echoed_iff_seven : ∃ kv',
    kvSetSeen lengthEnv true oneSetKv (oneByteSeen 7) = some (kv', .ok) ∧
      ∃ key flagsField bytesField value,
        SetSent (oneByteRequest ['7']) key flagsField bytesField value ∧
        (oneByteSeen 7).key = some key ∧ (oneByteSeen 7).value = some value ∧
        (oneByteSeen 7).flags.toNat = decimal flagsField ∧
        (Echoed lengthEnv kv' key flagsField bytesField value ↔ decimal flagsField < 2 ^ 16) := by
  obtain ⟨M, hinv⟩ := oneSetKv_reached.inv
  obtain ⟨kv', hrun⟩ := oneByte_stored hinv 7
  have hparse : protocolParseCommand (oneByteRequest ['7']) {} =
      some (.ok, oneByteCommand 7 7, 16) := by decide
  exact ⟨kv', hrun, set_echoed_iff hparse rfl (by decide) oneSetKv_reached.narrow hrun⟩

/-- The least flags that do not fit come back as 0. -/
theorem wide_flags_lost :
    NarrowReached lengthEnv freshKv ∧
    protocolParseCommand (oneByteRequest ['6', '5', '5', '3', '6']) {} =
      some (.ok, oneByteCommand 65536 11, 20) ∧
    see (oneByteRequest ['6', '5', '5', '3', '6']) (oneByteCommand 65536 11) =
      some (oneByteSeen 65536) ∧
    ∃ kv', kvSetSeen lengthEnv true freshKv (oneByteSeen 65536) = some (kv', .ok) ∧
      ∃ key flagsField bytesField value,
        SetSent (oneByteRequest ['6', '5', '5', '3', '6']) key flagsField bytesField value ∧
        ¬ Echoed lengthEnv kv' key flagsField bytesField value := by
  have hparse : protocolParseCommand (oneByteRequest ['6', '5', '5', '3', '6']) {} =
      some (.ok, oneByteCommand 65536 11, 20) := by decide
  have hsee : see (oneByteRequest ['6', '5', '5', '3', '6']) (oneByteCommand 65536 11) =
      some (oneByteSeen 65536) := by decide
  obtain ⟨kv', hrun⟩ := oneByte_stored (kvInit_spec freshKv_init) 65536
  obtain ⟨key, flagsField, bytesField, value, hsent, hseen⟩ :=
    frame_set (protocolParseCommand_frame hparse) rfl hsee
  refine ⟨freshKv_reached.narrow, hparse, hsee, kv', hrun, key, flagsField, bytesField, value,
    hsent, ?_⟩
  rw [kvSetSeen_echoed (kvInit_spec freshKv_init) hseen hrun, ← hseen.seen_flags]
  decide

end Kvx.Store
