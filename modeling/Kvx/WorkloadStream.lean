import Kvx.WorkloadParse

/-!
# What the writers emit is parsed back

No write leaves its buffer, and every command that is emitted is one that the parser reads as
expected. So it finds the commands of a stream one after the other, whole or in chunks, and waits on
every part of a command.
-/
namespace Kvx.ProtocolBench

open Kvx.Lib Kvx.Protocol Kvx.Net

def Writer.Room (w : Writer) (n : ℕ) : Prop := w.pos + n ≤ w.cap

/-- `w'` is `w` after more bytes. -/
structure Writer.Adds (w w' : Writer) (src : List UInt8) : Prop where
  written : w'.written = w.written ++ src
  cap : w'.cap = w.cap

theorem Writer.Room.mono {w : Writer} {n m : ℕ} (h : w.Room n) (hle : m ≤ n) : w.Room m :=
  (Nat.add_le_add_left hle w.pos).trans h

theorem Writer.Adds.trans {w w₁ w₂ : Writer} {src src' : List UInt8} (h : w.Adds w₁ src)
    (h' : w₁.Adds w₂ src') : w.Adds w₂ (src ++ src') where
  written := by rw [h'.written, h.written, List.append_assoc]
  cap := h'.cap.trans h.cap

theorem Writer.Adds.pos {w w' : Writer} {src : List UInt8} (h : w.Adds w' src) :
    w'.pos = w.pos + src.length := by
  rw [Writer.pos, h.written, List.length_append, Writer.pos]

theorem Writer.Adds.room {w w' : Writer} {src : List UInt8} {n : ℕ} (h : w.Adds w' src)
    (hroom : w.Room (src.length + n)) : w'.Room n := by
  unfold Writer.Room at *
  rw [h.pos, h.cap]
  omega

theorem Writer.putBytes_room {w : Writer} {src : List UInt8} {n : ℕ}
    (h : w.Room (src.length + n)) :
    ∃ w', w.putBytes src = some w' ∧ w.Adds w' src ∧ w'.Room n := by
  have hfits : (w.written ++ src).length ≤ w.cap := by
    have := h
    unfold Writer.Room Writer.pos at this
    rw [List.length_append]
    omega
  have hadds : w.Adds ⟨w.written ++ src, w.cap, hfits⟩ src := ⟨rfl, rfl⟩
  exact ⟨_, dif_pos hfits, hadds, hadds.room h⟩

theorem Writer.putChars_room {w : Writer} {chars : List UInt8} {n : ℕ}
    (h : w.Room (chars.length + n)) :
    ∃ w', chars.foldlM putChar w = some w' ∧ w.Adds w' chars ∧ w'.Room n := by
  induction chars generalizing w with
  | nil =>
    rw [List.length_nil, Nat.zero_add] at h
    exact ⟨w, rfl, ⟨(List.append_nil _).symm, rfl⟩, h⟩
  | cons c chars ih =>
    rw [List.length_cons, Nat.add_right_comm, Nat.add_comm] at h
    have hroom : w.Room ([c].length + (chars.length + n)) := h
    obtain ⟨w₁, hput, hadds, hroom⟩ := putBytes_room hroom
    obtain ⟨w₂, hrest, hadds', hroom'⟩ := ih hroom
    refine ⟨w₂, ?_, hadds.trans hadds', hroom'⟩
    rw [List.foldlM_cons, putChar, hput]
    exact hrest

theorem collectDigits_eq {room v : ℕ} (hroom : 0 < room) (h : v < 10 ^ room) :
    collectDigits room v = some (decimalText v).reverse := by
  induction room generalizing v with
  | zero => exact absurd hroom (Nat.lt_irrefl 0)
  | succ room ih =>
    rw [collectDigits, decimalText]
    by_cases hlt : v < 10
    · rw [if_pos (Nat.div_eq_of_lt hlt), if_pos hlt]
      rfl
    · have hpos : v / 10 ≠ 0 := by omega
      have hnext : v / 10 < 10 ^ room := by
        rw [Nat.pow_succ] at h
        omega
      have hleft : 0 < room := by
        by_contra hzero
        obtain rfl : room = 0 := by omega
        omega
      rw [if_neg hpos, if_neg hlt, ih hleft hnext, List.reverse_append]
      rfl

theorem Writer.putU64_room {w : Writer} {v n : ℕ} (hv : v < 10 ^ 20)
    (h : w.Room ((decimalText v).length + n)) :
    ∃ w', w.putU64 v = some w' ∧ w.Adds w' (decimalText v) ∧ w'.Room n := by
  obtain ⟨w', hput, hadds, hroom⟩ := putChars_room h
  refine ⟨w', ?_, hadds, hroom⟩
  rw [putU64, collectDigits_eq (by decide) hv, Option.bind_eq_bind, Option.bind_some,
    List.reverse_reverse, hput]

theorem keyAlphabet_ok {ch : UInt8} (h : ch ∈ keyAlphabet) : 0x20 < ch ∧ ch ≠ 0x7f := by
  have hall : keyAlphabet.all (fun ch => 0x20 < ch ∧ ch ≠ 0x7f) = true := by decide
  exact of_decide_eq_true (List.all_eq_true.mp hall ch h)

theorem fillKey_spec (len : ℕ) (state : BitVec 64) :
    ∃ state' key, fillKey len state = some (state', key) ∧ key.length = len ∧
      ∀ ch ∈ key, 0x20 < ch ∧ ch ≠ 0x7f := by
  induction len generalizing state with
  | zero => exact ⟨state, [], rfl, rfl, by simp⟩
  | succ len ih =>
    obtain ⟨state', key, hrun, hlen, hkey⟩ := ih (splitmix64 state).1
    have hlt : ((splitmix64 state).2 &&& 63#64).toNat < keyAlphabet.length := by
      have hle : ((splitmix64 state).2 &&& 63#64).toNat ≤ 63 := by
        rw [BitVec.toNat_and]
        exact Nat.and_le_right
      have hlength : keyAlphabet.length = 64 := rfl
      omega
    obtain ⟨ch, hch⟩ : ∃ ch, keyAlphabet[((splitmix64 state).2 &&& 63#64).toNat]? = some ch :=
      ⟨_, List.getElem?_eq_getElem hlt⟩
    refine ⟨state', ch :: key, ?_, congrArg Nat.succ hlen, ?_⟩
    · simp only [fillKey, hch, hrun, Option.bind_eq_bind, Option.bind_some]
    · exact List.forall_mem_cons.mpr ⟨keyAlphabet_ok (List.mem_of_getElem? hch), hkey⟩

theorem length_fillValue (len : ℕ) (state : BitVec 64) : (fillValue len state).2.length = len := by
  simp only [fillValue]
  split_ifs <;> simp

section Emitters

variable {w : Writer} {n : ℕ}

theorem Emit.put_room {src : List UInt8} (m : ℕ) (h : w.Room n) (hle : src.length + m ≤ n) :
    ∃ w', (∀ e state, Emit.put ⟨w, e, state⟩ src = some ⟨w', e, state⟩) ∧ w.Adds w' src ∧
      w'.Room m := by
  obtain ⟨w', hput, hadds, hroom⟩ := Writer.putBytes_room (h.mono hle)
  exact ⟨w', fun e state => by rw [Emit.put, hput, Option.map_some], hadds, hroom⟩

theorem Emit.putU64_room {v : ℕ} (m : ℕ) (hv : v < 10 ^ 20) (h : w.Room n)
    (hle : (decimalText v).length + m ≤ n) :
    ∃ w', (∀ e state, Emit.putU64 ⟨w, e, state⟩ v = some ⟨w', e, state⟩) ∧
      w.Adds w' (decimalText v) ∧ w'.Room m := by
  obtain ⟨w', hput, hadds, hroom⟩ := Writer.putU64_room hv (h.mono hle)
  exact ⟨w', fun e state => by rw [Emit.putU64, hput, Option.map_some], hadds, hroom⟩

theorem Emit.putField_room {v k : ℕ} (m : ℕ) (hv : v < 10 ^ 20)
    (hdigits : (decimalText v).length ≤ k) (h : w.Room n) (hle : 1 + k + m ≤ n) :
    ∃ w₁ w₂, (∀ e state, Emit.put ⟨w, e, state⟩ (text [' ']) = some ⟨w₁, e, state⟩) ∧
      (∀ e state, Emit.putU64 ⟨w₁, e, state⟩ v = some ⟨w₂, e, state⟩) ∧
      w.Adds w₂ (text [' '] ++ decimalText v) ∧ w₂.Room m := by
  have hspace : (text [' ']).length = 1 := rfl
  obtain ⟨w₁, h₁, hadds₁, hroom₁⟩ := Emit.put_room (k + m) h (by rw [hspace]; omega)
  obtain ⟨w₂, h₂, hadds₂, hroom₂⟩ := putU64_room m hv hroom₁ (by omega)
  exact ⟨w₁, w₂, h₁, h₂, hadds₁.trans hadds₂, hroom₂⟩

theorem emitKey_room {keyLen : ℕ} (state : BitVec 64) (m : ℕ) (h : w.Room n)
    (hle : keyLen + m ≤ n) (hpos : 1 ≤ keyLen) (hmax : keyLen ≤ 250) :
    ∃ w' state' key, (∀ e, emitKey keyLen ⟨w, e, state⟩ =
        some ⟨w', { e with keyOff := w.pos, keyLen := keyLen }, state'⟩) ∧
      w.Adds w' key ∧ w'.Room m ∧ key.length = keyLen ∧ KeyOk key := by
  obtain ⟨state', key, hfill, hlen, hkey⟩ := fillKey_spec keyLen state
  rw [← hlen] at hle
  obtain ⟨w', hput, hadds, hroom⟩ := Emit.put_room m h hle
  refine ⟨w', state', key, fun e => ?_, hadds, hroom, hlen, ?_⟩
  · rw [emitKey, hfill]
    exact hput _ _
  · rw [← hlen] at hpos hmax
    exact ⟨hpos, hmax, hkey⟩

/-- The last field of a line, where it is not absent. -/
def noreplyText (noreply : Bool) : List UInt8 := if noreply then space :: noreplyName else []

theorem emitNoreply_room (noreply : Bool) (m : ℕ) (h : w.Room n) (hle : 8 + m ≤ n) :
    ∃ w', (∀ e state, emitNoreply noreply ⟨w, e, state⟩ =
        some ⟨w', { e with noreply := noreply }, state⟩) ∧
      w.Adds w' (noreplyText noreply) ∧ w'.Room m := by
  cases noreply with
  | false => exact ⟨w, fun _ _ => rfl, ⟨(List.append_nil _).symm, rfl⟩, h.mono (by omega)⟩
  | true =>
    have hlen : (space :: noreplyName).length = 8 := rfl
    obtain ⟨w', hput, hadds, hroom⟩ := Emit.put_room m h (hlen.symm ▸ hle)
    exact ⟨w', fun _ _ => hput _ _, hadds, hroom⟩

theorem joined_noreplyField (f : List UInt8) (noreply : Bool) :
    joined space (f :: noreplyField noreply) = f ++ noreplyText noreply := by
  cases noreply with
  | false => exact (List.append_nil f).symm
  | true => rfl

theorem length_noreplyText (noreply : Bool) : (noreplyText noreply).length ≤ 8 := by
  cases noreply <;> decide

theorem text_crlf : text ['\r', '\n'] = crlf := rfl

/-- A workload whose keys the parser accepts, and whose commands have a length. -/
structure Workload.Ok (wl : Workload) : Prop where
  key_pos : 1 ≤ wl.keyLen
  key_max : wl.keyLen ≤ 250
  fits : 96 + wl.keyLen + wl.valueLen < 2 ^ 64

/-- What an emitter wrote is the command that it expects. -/
structure Emitted (wl : Workload) (w : Writer) (s : Emit) (told : List UInt8) : Prop where
  adds : w.Adds s.w told
  expected : Told w.pos s.e told
  short : told.length ≤ 96 + wl.keyLen + wl.valueLen

variable {wl : Workload} {e : Expect} {state : BitVec 64}

theorem emitGet_spec (hwl : wl.Ok) (h : w.Room (96 + wl.keyLen + wl.valueLen))
    (hstart : e.start = w.pos) :
    ∃ s told, emitGet wl ⟨w, e, state⟩ = some s ∧ Emitted wl w s told := by
  have hname : (text ['g', 'e', 't', ' ']).length = 4 := rfl
  have hend : crlf.length = 2 := rfl
  obtain ⟨w₁, h₁, hadds₁, hroom₁⟩ := Emit.put_room (92 + wl.keyLen) h (by rw [hname]; omega)
  obtain ⟨w₂, state', key, h₂, hadds₂, hroom₂, hlen, hkey⟩ := emitKey_room state 92 hroom₁
    (by omega) hwl.key_pos hwl.key_max
  obtain ⟨w₃, h₃, hadds₃, -⟩ := Emit.put_room 90 hroom₂ (by rw [hend])
  have hrun : emitGet wl ⟨w, e, state⟩ = some ⟨w₃,
      { e with type := .get, keyOff := w₁.pos, keyLen := wl.keyLen }, state'⟩ := by
    rw [emitGet, h₁, Option.bind_eq_bind, Option.bind_some, h₂, Option.bind_some]
    exact h₃ _ _
  obtain ⟨cmd, htype, hheader⟩ := header_get hkey
  have hline : joined space [commandName .get, key] = text ['g', 'e', 't', ' '] ++ (key ++ []) := by
    rw [List.append_nil]
    rfl
  have hadds : w.Adds w₃ (joined space [commandName .get, key] ++ crlf) := by
    rw [hline, List.append_nil]
    exact (hadds₁.trans hadds₂).trans hadds₃
  refine ⟨_, _, hrun, hadds, ?_, ?_⟩
  · exact told_line hheader ⟨hlen.symm, _, _, hline, hadds₁.pos⟩ hstart (by simp [htype]) htype
      (by simp) (by simp)
  · rw [hline, List.append_nil, List.length_append, List.length_append, hlen]
    omega

theorem emitDelete_spec (hwl : wl.Ok) (h : w.Room (96 + wl.keyLen + wl.valueLen))
    (hstart : e.start = w.pos) :
    ∃ s told, emitDelete wl ⟨w, e, state⟩ = some s ∧ Emitted wl w s told := by
  have hname : (text ['d', 'e', 'l', 'e', 't', 'e', ' ']).length = 7 := rfl
  have hend : crlf.length = 2 := rfl
  have hnoreply := length_noreplyText wl.noreply
  obtain ⟨w₁, h₁, hadds₁, hroom₁⟩ := Emit.put_room (89 + wl.keyLen) h (by rw [hname]; omega)
  obtain ⟨w₂, state', key, h₂, hadds₂, hroom₂, hlen, hkey⟩ := emitKey_room state 89 hroom₁
    (by omega) hwl.key_pos hwl.key_max
  obtain ⟨w₃, h₃, hadds₃, hroom₃⟩ := emitNoreply_room wl.noreply 81 hroom₂ (by omega)
  obtain ⟨w₄, h₄, hadds₄, -⟩ := Emit.put_room 79 hroom₃ (by rw [hend])
  have hrun : emitDelete wl ⟨w, e, state⟩ = some ⟨w₄, { e with
      type := .delete
      keyOff := w₁.pos
      keyLen := wl.keyLen
      noreply := wl.noreply }, state'⟩ := by
    rw [emitDelete, h₁, Option.bind_eq_bind, Option.bind_some, h₂, Option.bind_some, h₃,
      Option.bind_some]
    exact h₄ _ _
  obtain ⟨cmd, htype, hreply, hheader⟩ := header_delete hkey wl.noreply
  have hline : joined space (commandName .delete :: key :: noreplyField wl.noreply) =
      text ['d', 'e', 'l', 'e', 't', 'e', ' '] ++ (key ++ noreplyText wl.noreply) := by
    rw [← joined_noreplyField]
    rfl
  have hadds : w.Adds w₄
      (joined space (commandName .delete :: key :: noreplyField wl.noreply) ++ crlf) := by
    rw [hline]
    simp only [← List.append_assoc]
    exact ((hadds₁.trans hadds₂).trans hadds₃).trans hadds₄
  refine ⟨_, _, hrun, hadds, ?_, ?_⟩
  · exact told_line hheader ⟨hlen.symm, _, _, hline, hadds₁.pos⟩ hstart (by simp [htype]) htype
      (by simp) (fun _ => hreply)
  · rw [hline]
    simp only [List.length_append, hlen]
    omega

theorem emitTouch_spec (hwl : wl.Ok) (h : w.Room (96 + wl.keyLen + wl.valueLen))
    (hstart : e.start = w.pos) :
    ∃ s told, emitTouch wl ⟨w, e, state⟩ = some s ∧ Emitted wl w s told := by
  obtain ⟨state₀, r, hr⟩ : ∃ state₀ r, splitmix64 state = (state₀, r) := ⟨_, _, rfl⟩
  obtain ⟨exptime, hexptime⟩ : ∃ exptime, UInt32.ofNat (r.toNat % 86400) = exptime := ⟨_, rfl⟩
  have hname : (text ['t', 'o', 'u', 'c', 'h', ' ']).length = 6 := rfl
  have hspace : (text [' ']).length = 1 := rfl
  have hend : crlf.length = 2 := rfl
  have hdigits := flagsText_length exptime
  have hnoreply := length_noreplyText wl.noreply
  have htime := exptime.toNat_lt
  obtain ⟨w₁, h₁, hadds₁, hroom₁⟩ := Emit.put_room (90 + wl.keyLen) h (by rw [hname]; omega)
  obtain ⟨w₂, state', key, h₂, hadds₂, hroom₂, hlen, hkey⟩ := emitKey_room state₀ 90 hroom₁
    (by omega) hwl.key_pos hwl.key_max
  obtain ⟨w₃, w₄, h₃, h₄, hadds₄, hroom₄⟩ := Emit.putField_room 79 (by omega) hdigits hroom₂
    (by omega)
  obtain ⟨w₅, h₅, hadds₅, hroom₅⟩ := emitNoreply_room wl.noreply 71 hroom₄ (by omega)
  obtain ⟨w₆, h₆, hadds₆, -⟩ := Emit.put_room 69 hroom₅ (by rw [hend])
  have hrun : emitTouch wl ⟨w, e, state⟩ = some ⟨w₆, { e with
      type := .touch
      exptime := exptime
      keyOff := w₁.pos
      keyLen := wl.keyLen
      noreply := wl.noreply }, state'⟩ := by
    simp only [emitTouch, hr, hexptime, text_crlf, h₁, h₂, h₃, h₄, h₅, h₆, Option.bind_eq_bind,
      Option.bind_some]
  obtain ⟨cmd, htype, htime, hreply, hheader⟩ := header_touch hkey exptime wl.noreply
  have hline : joined space (commandName .touch :: key :: decimalText exptime.toNat ::
      noreplyField wl.noreply) = text ['t', 'o', 'u', 'c', 'h', ' '] ++ (key ++
        (text [' '] ++ (decimalText exptime.toNat ++ noreplyText wl.noreply))) := by
    rw [← joined_noreplyField]
    rfl
  have hadds : w.Adds w₆ (joined space (commandName .touch :: key :: decimalText exptime.toNat ::
      noreplyField wl.noreply) ++ crlf) := by
    rw [hline]
    simpa only [List.append_assoc] using
      (((hadds₁.trans hadds₂).trans hadds₄).trans hadds₅).trans hadds₆
  refine ⟨_, _, hrun, hadds, ?_, ?_⟩
  · exact told_line hheader ⟨hlen.symm, _, _, hline, hadds₁.pos⟩ hstart (by simp [htype]) htype
      (fun _ => htime) (fun _ => hreply)
  · rw [hline]
    simp only [List.length_append, hlen]
    omega

theorem emitSet_spec (hwl : wl.Ok) (h : w.Room (96 + wl.keyLen + wl.valueLen))
    (hstart : e.start = w.pos) :
    ∃ s told, emitSet wl ⟨w, e, state⟩ = some s ∧ Emitted wl w s told := by
  obtain ⟨state₀, r, hr⟩ : ∃ state₀ r, splitmix64 state = (state₀, r) := ⟨_, _, rfl⟩
  obtain ⟨flags, hflags⟩ : ∃ flags, UInt32.ofNat (r &&& 0xFFFF#64).toNat = flags := ⟨_, rfl⟩
  obtain ⟨state₁, r', hr'⟩ : ∃ state₁ r', splitmix64 state₀ = (state₁, r') := ⟨_, _, rfl⟩
  obtain ⟨exptime, hexptime⟩ : ∃ exptime, UInt32.ofNat (r'.toNat % 86400) = exptime := ⟨_, rfl⟩
  have hfits := hwl.fits
  have hname : (text ['s', 'e', 't', ' ']).length = 4 := rfl
  have hspace : (text [' ']).length = 1 := rfl
  have hend : crlf.length = 2 := rfl
  have hfdigits := flagsText_length flags
  have hxdigits := flagsText_length exptime
  have hvdigits : (decimalText wl.valueLen).length ≤ 20 :=
    decimalText_length_le (by decide) (by omega)
  have hflt := flags.toNat_lt
  have hxlt := exptime.toNat_lt
  have hnoreply := length_noreplyText wl.noreply
  obtain ⟨w₁, h₁, hadds₁, hroom₁⟩ := Emit.put_room (92 + wl.keyLen + wl.valueLen) h
    (by rw [hname]; omega)
  obtain ⟨w₂, state₂, key, h₂, hadds₂, hroom₂, hlen, hkey⟩ := emitKey_room state₁
    (92 + wl.valueLen) hroom₁ (by omega) hwl.key_pos hwl.key_max
  obtain ⟨w₃, w₄, h₃, h₄, hadds₄, hroom₄⟩ := Emit.putField_room (81 + wl.valueLen) (by omega)
    hfdigits hroom₂ (by omega)
  obtain ⟨w₅, w₆, h₅, h₆, hadds₆, hroom₆⟩ := Emit.putField_room (70 + wl.valueLen) (by omega)
    hxdigits hroom₄ (by omega)
  obtain ⟨w₇, w₈, h₇, h₈, hadds₈, hroom₈⟩ := Emit.putField_room (49 + wl.valueLen)
    (show wl.valueLen < 10 ^ 20 by omega) hvdigits hroom₆ (by omega)
  obtain ⟨w₉, h₉, hadds₉, hroom₉⟩ := emitNoreply_room wl.noreply (41 + wl.valueLen) hroom₈
    (by omega)
  obtain ⟨w₁₀, h₁₀, hadds₁₀, hroom₁₀⟩ := Emit.put_room (39 + wl.valueLen) hroom₉
    (by rw [hend]; omega)
  -- The value is a block of its own: its bytes are not part of the line.
  obtain ⟨state₃, value, hvalue⟩ : ∃ state₃ value,
    fillValue wl.valueLen state₂ = (state₃, value) := ⟨_, _, rfl⟩
  have hvlen : value.length = wl.valueLen := by
    rw [← length_fillValue wl.valueLen state₂, hvalue]
  obtain ⟨w₁₁, h₁₁, hadds₁₁, hroom₁₁⟩ := Emit.put_room 39 hroom₁₀
    (show value.length + 39 ≤ _ by omega)
  obtain ⟨w₁₂, h₁₂, hadds₁₂, -⟩ := Emit.put_room 37 hroom₁₁ (by rw [hend])
  have hrun : emitSet wl ⟨w, e, state⟩ = some ⟨w₁₂, { e with
      type := .set
      flags := flags
      exptime := exptime
      valueLen := wl.valueLen
      keyOff := w₁.pos
      keyLen := wl.keyLen
      noreply := wl.noreply
      valueOff := w₁₀.pos }, state₃⟩ := by
    simp only [emitSet, hr, hr', hflags, hexptime, text_crlf, h₁, h₂, h₃, h₄, h₅, h₆, h₇, h₈, h₉,
      h₁₀, hvalue, h₁₁, h₁₂, Option.bind_eq_bind, Option.bind_some]
  obtain ⟨cmd, htype, hcmdflags, htime, hvalueLen, hreply, hheader⟩ :=
    header_set hkey flags exptime (show wl.valueLen ≤ sizeMax by unfold sizeMax; omega) wl.noreply
  obtain ⟨line, hdef⟩ : ∃ line, joined space (commandName .set :: key :: decimalText flags.toNat ::
      decimalText exptime.toNat :: decimalText wl.valueLen :: noreplyField wl.noreply) = line :=
    ⟨_, rfl⟩
  have hline : line = text ['s', 'e', 't', ' '] ++ (key ++ (text [' '] ++
      (decimalText flags.toNat ++ (text [' '] ++ (decimalText exptime.toNat ++ (text [' '] ++
        (decimalText wl.valueLen ++ noreplyText wl.noreply))))))) := by
    rw [← joined_noreplyField, ← hdef]
    rfl
  have hlength : line.length ≤ 59 + wl.keyLen := by
    rw [hline]
    simp only [List.length_append, hlen]
    omega
  rw [hdef] at hheader
  have hhead : w.Adds w₁₀ (line ++ crlf) := by
    rw [hline]
    simpa only [List.append_assoc] using
      (((((hadds₁.trans hadds₂).trans hadds₄).trans hadds₆).trans hadds₈).trans hadds₉).trans
        hadds₁₀
  refine ⟨_, _, hrun, hhead.trans (hadds₁₁.trans hadds₁₂), ?_, ?_⟩
  · exact told_set hheader ⟨hlen.symm, _, _, hline, hadds₁.pos⟩ hstart htype rfl hcmdflags htime
      hreply hvalueLen hvlen hhead.pos (by unfold sizeMax; omega)
  · simp only [List.length_append]
    omega

theorem emitOne_spec (hwl : wl.Ok) (h : w.Room (96 + wl.keyLen + wl.valueLen))
    (hstart : e.start = w.pos) :
    ∃ s told, emitOne wl ⟨w, e, state⟩ = some s ∧ Emitted wl w s told := by
  obtain ⟨state', kind, hpick⟩ : ∃ state' kind, pickKind wl state = (state', kind) := ⟨_, _, rfl⟩
  simp only [emitOne, hpick]
  cases kind with
  | get => exact emitGet_spec hwl h hstart
  | set => exact emitSet_spec hwl h hstart
  | delete => exact emitDelete_spec hwl h hstart
  | touch => exact emitTouch_spec hwl h hstart

end Emitters

end Kvx.ProtocolBench
