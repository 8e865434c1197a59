import Kvx.ProtocolFrame

/-!
# The parser on longer and shorter buffers

A buffer that is decided stays decided in the same way when more bytes follow, and no
strict prefix of a frame is decided.
-/
namespace Kvx.Protocol

open Kvx.Lib

variable {b line : List UInt8} {cmd : Command} {n : ℕ}

/-- The length of the whole frame is not a `size_t`. -/
def TooLong (offset valueLen : ℕ) : Prop :=
  sizeMax - offset < 2 ∨ valueLen > sizeMax - offset - 2

instance (offset valueLen : ℕ) : Decidable (TooLong offset valueLen) :=
  inferInstanceAs (Decidable (_ ∨ _))

theorem tooLong_iff {offset valueLen : ℕ} :
    ¬ TooLong offset valueLen ↔ offset + valueLen + 2 ≤ sizeMax := by
  unfold TooLong
  omega

section Body

variable {pre rest data tail : List UInt8} {ch next : UInt8}

theorem protoParseBody_tooLong (h : TooLong n cmd.valueLen) (b : List UInt8) :
    protoParseBody b cmd n = .error .invalidValueLength := if_pos h

theorem protoParseBody_short (h : ¬ TooLong pre.length cmd.valueLen)
    (hlen : rest.length ≤ cmd.valueLen) :
    protoParseBody (pre ++ rest) cmd pre.length = .error .incomplete := by
  have hrem : (pre ++ rest).length - pre.length = rest.length := by
    rw [List.length_append]
    omega
  unfold TooLong at h
  unfold protoParseBody
  rw [if_neg h]
  simp only [hrem]
  by_cases hlt : rest.length < cmd.valueLen
  · rw [if_pos hlt]
  · rw [if_neg hlt, if_pos (by omega)]

theorem protoParseBody_last (h : ¬ TooLong pre.length cmd.valueLen)
    (hlen : data.length = cmd.valueLen) :
    protoParseBody (pre ++ (data ++ [ch])) cmd pre.length =
      if ch ≠ cr then .error .invalidDataBlock else .error .incomplete := by
  have hrem : (pre ++ (data ++ [ch])).length - pre.length = cmd.valueLen + 1 := by
    rw [List.length_append, List.length_append, List.length_singleton]
    omega
  have hread : (readAt (pre ++ (data ++ [ch])) (pre.length + cmd.valueLen) : Parse UInt8) =
      .ok ch := by
    apply readAt_eq
    rw [List.getElem?_append_right (by omega), List.getElem?_append_right (by omega)]
    simp [hlen]
  unfold TooLong at h
  unfold protoParseBody
  rw [if_neg h]
  simp only [hrem, hread, ok_bind, Nat.add_sub_cancel_left]
  rw [if_neg (by omega), if_neg (by decide), if_pos trivial]

theorem protoParseBody_cons (h : ¬ TooLong pre.length cmd.valueLen)
    (hlen : data.length = cmd.valueLen) :
    protoParseBody (pre ++ (data ++ ch :: next :: tail)) cmd pre.length =
      if ch ≠ cr then .error .invalidDataBlock
      else if next ≠ lf then .error .invalidDataBlock
      else .ok ({ cmd with value := some pre.length }, pre.length + cmd.valueLen + 2) := by
  have hrem : (pre ++ (data ++ ch :: next :: tail)).length - pre.length =
      cmd.valueLen + (tail.length + 2) := by
    simp only [List.length_append, List.length_cons]
    omega
  have hread : (readAt (pre ++ (data ++ ch :: next :: tail)) (pre.length + cmd.valueLen) :
      Parse UInt8) = .ok ch := by
    apply readAt_eq
    rw [List.getElem?_append_right (by omega), List.getElem?_append_right (by omega)]
    simp [hlen]
  have hnext : (readAt (pre ++ (data ++ ch :: next :: tail)) (pre.length + cmd.valueLen + 1) :
      Parse UInt8) = .ok next := by
    apply readAt_eq
    rw [List.getElem?_append_right (by omega), List.getElem?_append_right (by omega),
      show pre.length + cmd.valueLen + 1 - pre.length - data.length = 1 by omega]
    rfl
  unfold TooLong at h
  unfold protoParseBody
  rw [if_neg h]
  simp only [hrem, hread, hnext, ok_bind, Nat.add_sub_cancel_left]
  rw [if_neg (by omega), if_neg (by omega), if_neg (by omega : ¬ tail.length + 2 = 1)]

/-- The ways in which the bytes behind a header can end a data block, or not. -/
inductive BodyBytes (offset valueLen : ℕ) : List UInt8 → Prop
  | tooLong {rest : List UInt8} (long : TooLong offset valueLen) : BodyBytes offset valueLen rest
  | short {rest : List UInt8} (fits : ¬ TooLong offset valueLen) (len : rest.length ≤ valueLen) :
      BodyBytes offset valueLen rest
  | last {data : List UInt8} {ch : UInt8} (fits : ¬ TooLong offset valueLen)
      (len : data.length = valueLen) : BodyBytes offset valueLen (data ++ [ch])
  | more {data tail : List UInt8} {ch next : UInt8} (fits : ¬ TooLong offset valueLen)
      (len : data.length = valueLen) : BodyBytes offset valueLen (data ++ ch :: next :: tail)

theorem bodyBytes (offset valueLen : ℕ) (rest : List UInt8) : BodyBytes offset valueLen rest := by
  by_cases hlong : TooLong offset valueLen
  · exact .tooLong hlong
  rcases Nat.lt_or_ge valueLen rest.length with hlt | hge
  · have hlen : (rest.take valueLen).length = valueLen := List.length_take_of_le hlt.le
    rw [← List.take_append_drop valueLen rest, List.drop_eq_getElem_cons hlt]
    cases rest.drop (valueLen + 1) with
    | nil => exact .last hlong hlen
    | cons next tail => exact .more hlong hlen
  · exact .short hlong hge

theorem protoParseBody_stable (pre rest c : List UInt8) (cmd : Command)
    (h : protoParseBody (pre ++ rest) cmd pre.length ≠ .error .incomplete) :
    protoParseBody (pre ++ (rest ++ c)) cmd pre.length =
      protoParseBody (pre ++ rest) cmd pre.length := by
  cases bodyBytes pre.length cmd.valueLen rest with
  | tooLong long => rw [protoParseBody_tooLong long, protoParseBody_tooLong long]
  | short fits len => exact absurd (protoParseBody_short fits len) h
  | @last data ch fits len =>
    rw [protoParseBody_last fits len] at h ⊢
    by_cases hch : ch ≠ cr
    · rw [if_pos hch]
      cases c with
      | nil => rw [List.append_nil, protoParseBody_last fits len, if_pos hch]
      | cons next c =>
        rw [List.append_assoc, List.singleton_append, protoParseBody_cons fits len, if_pos hch]
    · rw [if_neg hch] at h
      exact absurd rfl h
  | more fits len =>
    rw [List.append_assoc, List.cons_append, List.cons_append, protoParseBody_cons fits len,
      protoParseBody_cons fits len]

theorem protoParseBody_ne_fault (pre rest : List UInt8) (cmd : Command) :
    protoParseBody (pre ++ rest) cmd pre.length ≠ .fault := by
  cases bodyBytes pre.length cmd.valueLen rest with
  | tooLong long =>
    rw [protoParseBody_tooLong long]
    simp
  | short fits len =>
    rw [protoParseBody_short fits len]
    simp
  | last fits len =>
    rw [protoParseBody_last fits len]
    split_ifs <;> simp
  | more fits len =>
    rw [protoParseBody_cons fits len]
    split_ifs <;> simp

theorem protoParseBody_eq_ok {parsed : Command} :
    protoParseBody (pre ++ rest) cmd pre.length = .ok (parsed, n) ↔
      ∃ data tail, rest = data ++ crlf ++ tail ∧ data.length = cmd.valueLen ∧
        pre.length + data.length + 2 ≤ sizeMax ∧ parsed = { cmd with value := some pre.length } ∧
        n = pre.length + data.length + 2 := by
  constructor
  · intro hrun
    cases bodyBytes pre.length cmd.valueLen rest with
    | tooLong long =>
      rw [protoParseBody_tooLong long] at hrun
      simp at hrun
    | short fits len =>
      rw [protoParseBody_short fits len] at hrun
      simp at hrun
    | last fits len =>
      rw [protoParseBody_last fits len] at hrun
      split_ifs at hrun
    | @more data tail ch next fits len =>
      rw [protoParseBody_cons fits len] at hrun
      split_ifs at hrun with hch hnext
      injection hrun with hrun
      obtain ⟨rfl, rfl⟩ := Prod.mk.inj hrun
      refine ⟨data, tail, ?_, len, ?_, rfl, by rw [len]⟩
      · rw [not_not.mp hch, not_not.mp hnext, List.append_assoc]
        rfl
      · rw [len]
        exact tooLong_iff.mp fits
  · rintro ⟨data, tail, rfl, hdata, hfits, rfl, rfl⟩
    rw [hdata] at hfits
    rw [List.append_assoc]
    exact (protoParseBody_cons (tooLong_iff.mpr hfits) hdata).trans (by simp [hdata])

end Body

theorem parseFrame_error {err : ProtoError} (h : protoFindLine b = .error err) :
    parseFrame b = .error err := by
  rw [parseFrame, h, error_bind]

theorem parseFrame_ended (h : NoBreak line) (rest : List UInt8) :
    parseFrame (line ++ crlf ++ rest) =
      protoParseHeader line line.length {} >>= fun parsed =>
        if parsed.type = .set then
          protoParseBody (line ++ crlf ++ rest) parsed (line ++ crlf).length
        else .ok (parsed, (line ++ crlf).length) := by
  have hfind : protoFindLine (line ++ crlf ++ rest) = .ok line.length := by
    rw [List.append_assoc]
    exact (protoFindLine_cr h lf rest).trans (if_neg (by simp))
  have hheader := protoParseHeader_append line (crlf ++ rest)
  rw [← List.append_assoc] at hheader
  have hlen : (line ++ crlf).length = line.length + 2 := List.length_append
  rw [parseFrame, hfind, ok_bind, hheader, hlen]

theorem parseFrame_ne_fault (b : List UInt8) : parseFrame b ≠ .fault := by
  cases lineForm b with
  | unbroken line h =>
    rw [parseFrame_error (protoFindLine_unbroken h)]
    simp
  | halfBroken line h =>
    rw [parseFrame_error (protoFindLine_halfBroken h)]
    simp
  | bareLf line rest h =>
    rw [parseFrame_error (protoFindLine_bareLf h rest)]
    simp
  | bareCr line ch rest h hch =>
    rw [parseFrame_error ((protoFindLine_cr h ch rest).trans (if_pos hch))]
    simp
  | ended line rest h =>
    rw [parseFrame_ended h]
    refine bind_ne_fault (protoParseHeader_ne_fault line) fun parsed _ => ?_
    split_ifs
    · exact protoParseBody_ne_fault _ rest parsed
    · simp

theorem parseFrame_stable (b c : List UInt8) (h : parseFrame b ≠ .error .incomplete) :
    parseFrame (b ++ c) = parseFrame b := by
  cases lineForm b with
  | unbroken line hline => exact absurd (parseFrame_error (protoFindLine_unbroken hline)) h
  | halfBroken line hline => exact absurd (parseFrame_error (protoFindLine_halfBroken hline)) h
  | bareLf line rest hline =>
    rw [parseFrame_error (protoFindLine_bareLf hline rest), List.append_assoc, List.cons_append,
      parseFrame_error (protoFindLine_bareLf hline (rest ++ c))]
  | bareCr line ch rest hline hch =>
    rw [parseFrame_error ((protoFindLine_cr hline ch rest).trans (if_pos hch)), List.append_assoc,
      List.cons_append, List.cons_append,
      parseFrame_error ((protoFindLine_cr hline ch (rest ++ c)).trans (if_pos hch))]
  | ended line rest hline =>
    rw [parseFrame_ended hline] at h ⊢
    rw [List.append_assoc _ rest, parseFrame_ended hline]
    refine bind_congr_ok fun parsed hheader => ?_
    rw [hheader, ok_bind] at h
    by_cases hset : parsed.type = .set
    · rw [if_pos hset] at h ⊢
      rw [if_pos hset]
      exact protoParseBody_stable _ rest c parsed h
    · rw [if_neg hset, if_neg hset]

theorem parseFrame_eq_ok :
    parseFrame b = .ok (cmd, n) ↔
      ∃ line parsed rest, NoBreak line ∧ protoParseHeader line line.length {} = .ok parsed ∧
        b = line ++ crlf ++ rest ∧
        ((parsed.type ≠ .set ∧ cmd = parsed ∧ n = (line ++ crlf).length) ∨
          (parsed.type = .set ∧ ∃ data tail, rest = data ++ crlf ++ tail ∧
            data.length = parsed.valueLen ∧ (line ++ crlf).length + data.length + 2 ≤ sizeMax ∧
            cmd = { parsed with value := some (line ++ crlf).length } ∧
            n = (line ++ crlf).length + data.length + 2)) := by
  constructor
  · intro hrun
    cases lineForm b with
    | unbroken line h =>
      rw [parseFrame_error (protoFindLine_unbroken h)] at hrun
      simp at hrun
    | halfBroken line h =>
      rw [parseFrame_error (protoFindLine_halfBroken h)] at hrun
      simp at hrun
    | bareLf line rest h =>
      rw [parseFrame_error (protoFindLine_bareLf h rest)] at hrun
      simp at hrun
    | bareCr line ch rest h hch =>
      rw [parseFrame_error ((protoFindLine_cr h ch rest).trans (if_pos hch))] at hrun
      simp at hrun
    | ended line rest h =>
      rw [parseFrame_ended h, bind_eq_ok] at hrun
      obtain ⟨parsed, hheader, hrun⟩ := hrun
      refine ⟨line, parsed, rest, h, hheader, rfl, ?_⟩
      by_cases hset : parsed.type = .set
      · rw [if_pos hset] at hrun
        exact Or.inr ⟨hset, protoParseBody_eq_ok.mp hrun⟩
      · rw [if_neg hset] at hrun
        injection hrun with hrun
        obtain ⟨rfl, rfl⟩ := Prod.mk.inj hrun
        exact Or.inl ⟨hset, rfl, rfl⟩
  · rintro ⟨line, parsed, rest, h, hheader, rfl, ⟨hset, rfl, rfl⟩ | ⟨hset, hbody⟩⟩
    · rw [parseFrame_ended h, hheader, ok_bind, if_neg hset]
    · rw [parseFrame_ended h, hheader, ok_bind, if_pos hset]
      exact protoParseBody_eq_ok.mpr hbody

theorem noBreak_take (h : NoBreak line) (m : ℕ) : NoBreak (line.take m) :=
  fun ch hch => h ch (List.mem_of_mem_take hch)

theorem parseFrame_header_prefix (h : NoBreak line) {m : ℕ} (hm : m < (line ++ crlf).length)
    (rest : List UInt8) : parseFrame ((line ++ crlf ++ rest).take m) = .error .incomplete := by
  have hlen : (line ++ crlf).length = line.length + 2 := List.length_append
  rw [List.take_append_of_le_length hm.le]
  rcases Nat.lt_or_ge line.length m with hlt | hge
  · have hm1 : m = line.length + 1 := by omega
    have htake : (line ++ crlf).take m = line ++ [cr] := by
      rw [hm1, List.take_length_add_append]
      rfl
    rw [htake]
    exact parseFrame_error (protoFindLine_halfBroken h)
  · rw [List.take_append_of_le_length hge]
    exact parseFrame_error (protoFindLine_unbroken (noBreak_take h m))

theorem parseFrame_body_prefix {parsed : Command} {data : List UInt8} (h : NoBreak line)
    (hheader : protoParseHeader line line.length {} = .ok parsed) (hset : parsed.type = .set)
    (hdata : data.length = parsed.valueLen)
    (hfits : (line ++ crlf).length + data.length + 2 ≤ sizeMax) {k : ℕ}
    (hk : k < data.length + 2) (tail : List UInt8) :
    parseFrame (line ++ crlf ++ (data ++ crlf ++ tail).take k) = .error .incomplete := by
  have hlong : ¬ TooLong (line ++ crlf).length parsed.valueLen :=
    tooLong_iff.mpr (by rw [← hdata]; exact hfits)
  rw [parseFrame_ended h, hheader, ok_bind, if_pos hset]
  rcases Nat.lt_or_ge data.length k with hlt | hge
  · have hk1 : k = data.length + 1 := by omega
    have htake : (data ++ crlf ++ tail).take k = data ++ [cr] := by
      rw [hk1, List.append_assoc, List.take_length_add_append]
      rfl
    rw [htake, protoParseBody_last hlong hdata]
    rfl
  · apply protoParseBody_short hlong
    rw [List.length_take]
    omega

theorem parseFrame_ok_prefix (hrun : parseFrame b = .ok (cmd, n)) :
    2 ≤ n ∧ n ≤ b.length ∧ parseFrame (b.take n) = .ok (cmd, n) ∧
      ∀ m < n, parseFrame (b.take m) = .error .incomplete := by
  obtain ⟨line, parsed, rest, h, hheader, rfl, ⟨hset, rfl, rfl⟩ |
    ⟨hset, data, tail, rfl, hdata, hfits, rfl, rfl⟩⟩ := parseFrame_eq_ok.mp hrun
  · have hlen : (line ++ crlf).length = line.length + 2 := List.length_append
    refine ⟨by omega, (List.prefix_append (line ++ crlf) rest).length_le, ?_, fun m hm => ?_⟩
    · rw [List.take_left]
      exact parseFrame_eq_ok.mpr
        ⟨line, cmd, [], h, hheader, (List.append_nil _).symm, Or.inl ⟨hset, rfl, rfl⟩⟩
    · exact parseFrame_header_prefix h hm rest
  · have hlen : (line ++ crlf).length = line.length + 2 := List.length_append
    have hend : (data ++ crlf).length = data.length + 2 := List.length_append
    refine ⟨by omega, ?_, ?_, fun m hm => ?_⟩
    · rw [hlen, List.length_append, hlen, List.length_append, hend]
      omega
    · have htake : (line ++ crlf ++ (data ++ crlf ++ tail)).take
          ((line ++ crlf).length + data.length + 2) = line ++ crlf ++ (data ++ crlf ++ []) := by
        rw [Nat.add_assoc, List.take_length_add_append, ← hend, List.take_left, List.append_nil]
      rw [htake]
      exact parseFrame_eq_ok.mpr ⟨line, parsed, _, h, hheader, rfl,
        Or.inr ⟨hset, data, [], rfl, hdata, hfits, rfl, rfl⟩⟩
    · rcases Nat.lt_or_ge m (line ++ crlf).length with hlt | hge
      · exact parseFrame_header_prefix h hlt _
      · rw [show m = (line ++ crlf).length + (m - (line ++ crlf).length) by omega,
          List.take_length_add_append]
        exact parseFrame_body_prefix h hheader hset hdata hfits (by omega) tail

/-- A decided buffer stays decided, and a frame is decided by its last byte. -/
theorem parse_stable (b : List UInt8) (cmd : Command) :
    ∃ code out n, protocolParseCommand b cmd = some (code, out, n) ∧
      (code ≠ .err .incomplete →
        ∀ c, protocolParseCommand (b ++ c) cmd = some (code, out, n)) ∧
      (code = .ok → 2 ≤ n ∧ n ≤ b.length ∧
        protocolParseCommand (b.take n) cmd = some (.ok, out, n) ∧
        ∀ m < n, protocolParseCommand (b.take m) cmd = some (.err .incomplete, cmd, 0)) := by
  have hstable := parseFrame_stable b
  unfold protocolParseCommand
  cases hrun : parseFrame b with
  | fault => exact absurd hrun (parseFrame_ne_fault b)
  | error err =>
    refine ⟨.err err, cmd, 0, rfl, fun hcode c => ?_, fun hcode => by simp at hcode⟩
    rw [hstable c (by simpa [hrun] using hcode), hrun]
  | ok result =>
    obtain ⟨parsed, n⟩ := result
    obtain ⟨hpos, hle, htake, hstart⟩ := parseFrame_ok_prefix hrun
    refine ⟨.ok, parsed, n, rfl, fun _ c => ?_, fun _ => ⟨hpos, hle, ?_, fun m hm => ?_⟩⟩
    · rw [hstable c (by simp [hrun]), hrun]
    · rw [htake]
    · rw [hstart m hm]

end Kvx.Protocol
