import Kvx.Lib.Delimited
import Kvx.ProtocolWrite

/-!
# The responses to `get`

A response lists entries and ends with `END`. A value may hold anything, also lines that
look like entries or like the end: its length tells where it ends, and no key and no
number holds a separator.
-/
namespace Kvx.Protocol

open Kvx.Lib

structure GetEntry where
  key : List UInt8
  flags : UInt32
  value : List UInt8
  deriving DecidableEq, Repr

theorem keyOk_space {key : List UInt8} (h : KeyOk key) : space ∉ key := by
  intro hm
  have hlow := (h.2.2 space hm).1
  exact absurd hlow (by decide)

theorem digits_not_mem {s : List UInt8} (h : Digits s) {sep : UInt8} (hsep : ¬ IsDigit sep) :
    sep ∉ s := fun hm => hsep (h sep hm)

theorem decimalText_injective : Function.Injective decimalText := by
  intro m n h
  rw [← decimal_decimalText m, h, decimal_decimalText]

theorem number_delimited (sep : UInt8) (hsep : ¬ IsDigit sep) :
    Delimited (fun _ : ℕ => True) fun n => decimalText n ++ [sep] :=
  .field (fun n _ => digits_not_mem (decimalText_digits n) hsep)
    fun _ _ _ _ h => decimalText_injective h

/-- The parts of an entry in the order of their codes. -/
def GetEntry.parts (e : GetEntry) : List UInt8 × UInt32 × ℕ × List UInt8 :=
  (e.key, e.flags, e.value.length, e.value)

theorem GetEntry.parts_injective : Function.Injective GetEntry.parts := by
  rintro ⟨key, flags, value⟩ ⟨key', flags', value'⟩ h
  simp only [GetEntry.parts, Prod.mk.injEq] at h
  obtain ⟨rfl, rfl, -, rfl⟩ := h
  rfl

theorem entry_delimited :
    Delimited (fun e : GetEntry => KeyOk e.key) fun e => getResultText e.key e.flags e.value := by
  have hvalue : ∀ n : ℕ, True → Delimited (fun v : List UInt8 => v.length = n) fun v =>
      [lf] ++ (v ++ [cr, lf]) :=
    fun n _ => ((Delimited.block n).after [cr, lf]).before [lf]
  have hblock := (number_delimited cr (by decide)).pair hvalue
  have hflags := ((number_delimited space (by decide)).comap (f := UInt32.toNat)
    fun _ _ h => UInt32.toNat_inj.mp h).pair fun _ _ => hblock
  have hkey : Delimited KeyOk fun key => key ++ [space] :=
    .field (fun _ h => keyOk_space h) fun _ _ _ _ h => h
  have hall := ((hkey.pair fun _ _ => hflags).before (text ['V', 'A', 'L', 'U', 'E', ' '])).comap
    GetEntry.parts_injective
  intro a b r s ha hb hp
  apply hall (r := r) (s := s) ⟨ha, trivial, trivial, rfl⟩ ⟨hb, trivial, trivial, rfl⟩
  simp only [getResultText, GetEntry.parts, List.append_assoc, List.cons_append,
    List.nil_append] at hp ⊢
  exact hp

theorem response_delimited :
    Delimited (fun es : List GetEntry => ∀ e ∈ es, KeyOk e.key) fun es =>
      es.flatMap (fun e => getResultText e.key e.flags e.value) ++ endText := by
  have hentry : ∀ e : GetEntry, ∃ rest, getResultText e.key e.flags e.value = 86 :: rest :=
    fun e => ⟨_, rfl⟩
  have hend : ∃ rest, endText = 69 :: rest := ⟨_, rfl⟩
  obtain ⟨stop, hend⟩ := hend
  refine entry_delimited.list (fun e r s _ hp => ?_) fun e r s _ hp => ?_
  · obtain ⟨rest, he⟩ := hentry e
    rw [he, hend, List.cons_append, List.cons_append, List.cons_prefix_cons] at hp
    exact absurd hp.1 (by decide)
  · obtain ⟨rest, he⟩ := hentry e
    rw [he, hend, List.cons_append, List.cons_append, List.cons_prefix_cons] at hp
    exact absurd hp.1 (by decide)

/-- `proto_parse_key` accepts the key. -/
def KeyAccepted (key : List UInt8) : Prop :=
  ∃ cmd cmd', protoParseKey key ⟨0, key.length⟩ cmd = .ok cmd'

theorem keyAccepted_iff {key : List UInt8} : KeyAccepted key ↔ KeyOk key := by
  have hwithin : (⟨0, key.length⟩ : Run).start + (⟨0, key.length⟩ : Run).len ≤ key.length :=
    (Nat.zero_add _).le
  have hof : (⟨0, key.length⟩ : Run).of key = key := List.take_length
  constructor
  · rintro ⟨cmd, cmd', hrun⟩
    by_contra hbad
    obtain ⟨err, herr⟩ := protoParseKey_error hwithin (by rwa [hof]) cmd
    simp only [Token.ofRun] at herr
    rw [herr] at hrun
    simp at hrun
  · intro hk
    exact ⟨{}, _, protoParseKey_ok hwithin (by rwa [hof]) {}⟩

/-- `protocol_write_get_result` wrote `out` for the entry, into some destination with room for
it. The pointer to an empty value may be `NULL`. -/
def Emits (e : GetEntry) (out : List UInt8) : Prop :=
  ∃ dst value dst' n, value.data = e.value ∧ value.len = e.value.length ∧
    protocolWriteGetResult (.bytes dst) (.bytes e.key) e.flags value =
      some (.ok, .bytes dst', n) ∧ dst'.take n = out

/-- What the writers wrote for the entries listed and for the end behind them. -/
inductive GetStream : List GetEntry → List UInt8 → Prop
  | stop {dst dst' : List UInt8} {n : ℕ}
      (run : protocolWriteGetEnd (.bytes dst) = some (.ok, .bytes dst', n)) :
      GetStream [] (dst'.take n)
  | entry {e : GetEntry} {es : List GetEntry} {out rest : List UInt8} (first : Emits e out)
      (later : GetStream es rest) : GetStream (e :: es) (out ++ rest)

theorem emits_iff {e : GetEntry} {out : List UInt8} (hk : KeyOk e.key) :
    Emits e out ↔ (getResultText e.key e.flags e.value).length ≤ sizeMax ∧
      out = getResultText e.key e.flags e.value := by
  constructor
  · rintro ⟨dst, value, dst', n, hdata, hlen, hrun, rfl⟩
    have hnull : value.isNull → value.len = 0 := by
      cases value with
      | null len => exact fun _ => by rw [hlen, ← hdata]; rfl
      | bytes data => exact fun h => by simp at h
    obtain ⟨hsize, -, hr⟩ := (writeGetResult_eq_ok hk.1 hk.2.1 hnull).mp (written_eq_ok.mp hrun)
    rw [Prod.ext_iff] at hr
    obtain ⟨rfl, rfl⟩ := hr
    rw [hdata] at hsize ⊢
    exact ⟨hsize, take_wrote dst _⟩
  · rintro ⟨hsize, rfl⟩
    let dst := getResultText e.key e.flags e.value
    have hnull : (Slice.bytes e.value).isNull → (Slice.bytes e.value).len = 0 := by simp
    have hrun : writeGetResult (.bytes dst) (.bytes e.key) e.flags (.bytes e.value) =
        .ok (wrote dst dst) :=
      (writeGetResult_eq_ok hk.1 hk.2.1 hnull).mpr ⟨hsize, le_rfl, rfl⟩
    exact ⟨dst, .bytes e.value, (wrote dst dst).1, (wrote dst dst).2, rfl, rfl,
      written_eq_ok.mpr hrun, take_wrote dst dst⟩

theorem getStream_eq {es : List GetEntry} {s : List UInt8} (h : GetStream es s)
    (hk : ∀ e ∈ es, KeyOk e.key) :
    s = es.flatMap (fun e => getResultText e.key e.flags e.value) ++ endText := by
  induction h with
  | stop run =>
    obtain ⟨-, hr⟩ := writeBytes_eq_ok.mp (written_eq_ok.mp run)
    rw [Prod.ext_iff] at hr
    obtain ⟨rfl, rfl⟩ := hr
    exact take_wrote _ endText
  | entry first later ih =>
    obtain ⟨-, rfl⟩ := (emits_iff (hk _ List.mem_cons_self)).mp first
    rw [ih fun e he => hk e (List.mem_cons_of_mem _ he), List.flatMap_cons, List.append_assoc]

/-- Every list of entries with accepted keys and no entry too long has a stream. -/
theorem getStream_exists {es : List GetEntry} (hk : ∀ e ∈ es, KeyOk e.key)
    (hsize : ∀ e ∈ es, (getResultText e.key e.flags e.value).length ≤ sizeMax) :
    ∃ s, GetStream es s := by
  induction es with
  | nil =>
    have hrun : writeBytes (.bytes endText) endText = .ok (wrote endText endText) :=
      writeBytes_eq_ok.mpr ⟨le_rfl, rfl⟩
    exact ⟨_, .stop (written_eq_ok.mpr hrun)⟩
  | cons e es ih =>
    obtain ⟨rest, hrest⟩ := ih (fun e he => hk e (List.mem_cons_of_mem _ he))
      fun e he => hsize e (List.mem_cons_of_mem _ he)
    exact ⟨_, .entry ((emits_iff (hk e List.mem_cons_self)).mpr
      ⟨hsize e List.mem_cons_self, rfl⟩) hrest⟩

theorem get_streams_decodable {es es' : List GetEntry} {s s' : List UInt8}
    (h : GetStream es s) (h' : GetStream es' s') (hk : ∀ e ∈ es, KeyAccepted e.key)
    (hk' : ∀ e ∈ es', KeyAccepted e.key) (hp : s <+: s') : es = es' := by
  have hok : ∀ e ∈ es, KeyOk e.key := fun e he => keyAccepted_iff.mp (hk e he)
  have hok' : ∀ e ∈ es', KeyOk e.key := fun e he => keyAccepted_iff.mp (hk' e he)
  rw [getStream_eq h hok, getStream_eq h' hok'] at hp
  exact response_delimited (r := []) (s := []) hok hok' (by simpa using hp)

/-- An entry whose value looks like the end of the response. -/
def endEntry : GetEntry := ⟨[107], 5, [cr, lf] ++ endText⟩

theorem endEntry_keyOk : ∀ e ∈ [endEntry], KeyOk e.key := by
  intro e he
  rw [List.mem_singleton.mp he]
  refine ⟨by decide, by decide, fun ch hch => ?_⟩
  rw [List.mem_singleton.mp hch]
  decide

theorem get_streams_decodable_end :
    ∃ s, GetStream [endEntry] s ∧ s <+: s ∧ [endEntry] = [endEntry] := by
  obtain ⟨s, hs⟩ := getStream_exists endEntry_keyOk fun e he => by
    rw [List.mem_singleton.mp he]
    exact (getResultText_length_le 5 (by decide) (by decide)).trans (by decide)
  have hk : ∀ e ∈ [endEntry], KeyAccepted e.key :=
    fun e he => keyAccepted_iff.mpr (endEntry_keyOk e he)
  exact ⟨s, hs, List.prefix_rfl, get_streams_decodable hs hs hk hk List.prefix_rfl⟩

end Kvx.Protocol
