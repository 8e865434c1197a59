import Kvx.CommandStream
import Kvx.ProtocolGuarded

/-!
# The parser stays inside its input

On every buffer with a length that is a `size_t`, the checked parser ends without a fault
and as the parser does. A byte was read before a position moves past it, so no position
exceeds the length.
-/
namespace Kvx.Protocol

namespace Guarded

open Kvx.Lib

variable {b : List UInt8} {len base pos n : ℕ}

theorem add_eq {m n : ℕ} (h : m + n ≤ sizeMax) : add m n = .ok (m + n) := if_pos h

theorem sub_eq {m n : ℕ} (h : n ≤ m) : sub m n = .ok (m - n) := if_pos h

theorem advanceWhile_eq (hb : b.length ≤ sizeMax) (accept : UInt8 → Bool) {fuel : ℕ}
    (hpos : pos ≤ len) (hfuel : len - pos < fuel) :
    (do let p ← advanceWhile accept b base len fuel pos; .ok (base + p)) =
      Protocol.advanceWhile accept b (len - pos) (base + pos) := by
  induction fuel generalizing pos with
  | zero => omega
  | succ fuel ih =>
    unfold advanceWhile
    by_cases hlt : pos < len
    · obtain ⟨k, hk⟩ : ∃ k, len - pos = k + 1 := ⟨len - pos - 1, by omega⟩
      rw [if_pos hlt, hk, Protocol.advanceWhile, bind_assoc_checked]
      refine bind_congr_ok fun ch hch => ?_
      have hread := readAt_lt hch
      cases accept ch with
      | false => rfl
      | true =>
        have hrest := ih (show pos + 1 ≤ len by omega) (by omega)
        rw [show len - (pos + 1) = k by omega] at hrest
        simp only [if_true, add_eq (show pos + 1 ≤ sizeMax by omega), ok_bind]
        exact hrest
    · rw [if_neg hlt, show len - pos = 0 by omega]
      rfl

theorem advanceWhile_range {accept : UInt8 → Bool} {p : ℕ}
    (h : Protocol.advanceWhile accept b n pos = .ok p) : pos ≤ p ∧ p ≤ pos + n := by
  induction n generalizing pos with
  | zero =>
    rw [Protocol.advanceWhile, Checked.ok.injEq] at h
    omega
  | succ n ih =>
    rw [Protocol.advanceWhile, bind_eq_ok] at h
    obtain ⟨ch, -, h⟩ := h
    split_ifs at h
    · have := ih h
      omega
    · rw [Checked.ok.injEq] at h
      omega

theorem advanceWhile_within {accept : UInt8 → Bool} {fuel p : ℕ} (hpos : pos ≤ len)
    (h : advanceWhile accept b base len fuel pos = .ok p) : pos ≤ p ∧ p ≤ len := by
  induction fuel generalizing pos with
  | zero => cases h
  | succ fuel ih =>
    rw [advanceWhile] at h
    by_cases hlt : pos < len
    · rw [if_pos hlt, bind_eq_ok] at h
      obtain ⟨ch, -, h⟩ := h
      by_cases haccept : accept ch
      · rw [if_pos haccept, bind_eq_ok] at h
        obtain ⟨next, hnext, h⟩ := h
        unfold add at hnext
        split_ifs at hnext
        rw [Checked.ok.injEq] at hnext
        have := ih (by omega) h
        omega
      · rw [if_neg haccept, Checked.ok.injEq] at h
        omega
    · rw [if_neg hlt, Checked.ok.injEq] at h
      omega

theorem protoFindLineFrom_eq (hb : b.length ≤ sizeMax) {fuel i : ℕ} (hi : i ≤ b.length)
    (hfuel : b.length - i < fuel) :
    protoFindLineFrom b b.length fuel i = Protocol.protoFindLineFrom b (b.length - i) i := by
  induction fuel generalizing i with
  | zero => omega
  | succ fuel ih =>
    unfold protoFindLineFrom
    by_cases hlt : i < b.length
    · obtain ⟨k, hk⟩ : ∃ k, b.length - i = k + 1 := ⟨b.length - i - 1, by omega⟩
      have hrest := ih (show i + 1 ≤ b.length by omega) (by omega)
      rw [show b.length - (i + 1) = k by omega] at hrest
      rw [if_pos hlt, hk, Protocol.protoFindLineFrom]
      simp only [add_eq (show i + 1 ≤ sizeMax by omega), sub_eq hi, ok_bind, hk, hrest]
    · rw [if_neg hlt, show b.length - i = 0 by omega]
      rfl

theorem protoFindLine_eq (hb : b.length ≤ sizeMax) :
    protoFindLine b b.length = Protocol.protoFindLine b :=
  protoFindLineFrom_eq hb (Nat.zero_le _) (by omega)

theorem protoFindLineFrom_range {i : ℕ} (h : Protocol.protoFindLineFrom b n pos = .ok i) :
    i + 2 ≤ b.length := by
  induction n generalizing pos with
  | zero => cases h
  | succ n ih =>
    rw [Protocol.protoFindLineFrom, bind_eq_ok] at h
    obtain ⟨ch, -, h⟩ := h
    split_ifs at h
    · exact ih h
    · rw [bind_eq_ok] at h
      obtain ⟨next, hnext, h⟩ := h
      have hlt := readAt_lt hnext
      split_ifs at h
      rw [Checked.ok.injEq] at h
      omega

/-- The array once the tokens listed were written into it. -/
def tokenArray (tokens : List Token) : List (Option Token) :=
  tokens.map some ++ List.replicate (protoMaxTokens - tokens.length) none

theorem readToken_eq {tokens : List Token} (h : tokens.length ≤ protoMaxTokens) (i : ℕ) :
    readToken (tokenArray tokens) i = readAt tokens i := by
  unfold readToken readAt tokenArray
  by_cases hi : i < tokens.length
  · rw [if_pos (by omega), List.getElem?_append_left (by rwa [List.length_map]),
      List.getElem?_map, List.getElem?_eq_getElem hi]
    rfl
  · rw [List.getElem?_eq_none (not_lt.mp hi)]
    by_cases hmax : i < protoMaxTokens
    · rw [if_pos hmax, List.getElem?_append_right (by rw [List.length_map]; omega),
        List.getElem?_replicate, if_pos (by rw [List.length_map]; omega)]
    · rw [if_neg hmax]

theorem writeToken_eq {tokens : List Token} (h : tokens.length < protoMaxTokens) (token : Token) :
    writeToken (tokenArray tokens) tokens.length token = .ok (tokenArray (tokens ++ [token])) := by
  obtain ⟨k, hk⟩ : ∃ k, protoMaxTokens - tokens.length = k + 1 :=
    ⟨protoMaxTokens - tokens.length - 1, by omega⟩
  have hk' : protoMaxTokens - (tokens ++ [token]).length = k := by
    rw [List.length_append, List.length_singleton]
    omega
  rw [writeToken, if_pos h, tokenArray, tokenArray, hk, hk', List.replicate_succ,
    List.set_append_right _ _ (by rw [List.length_map]), List.length_map, Nat.sub_self,
    List.set_cons_zero, List.map_append, List.append_assoc]
  rfl

theorem advanceWhile_zero (hb : b.length ≤ sizeMax) (accept : UInt8 → Bool) (hpos : pos ≤ len) :
    advanceWhile accept b 0 len (len + 1) pos = Protocol.advanceWhile accept b (len - pos) pos := by
  have h : (do let p ← advanceWhile accept b 0 len (len + 1) pos; .ok (0 + p)) =
      Protocol.advanceWhile accept b (len - pos) (0 + pos) :=
    advanceWhile_eq hb accept hpos (by omega)
  simpa only [Nat.zero_add, bind_ok] using h

theorem protoTokenizeFrom_length {capacity fuel : ℕ} {tokens tokens' : List Token}
    (h : Protocol.protoTokenizeFrom b len capacity fuel pos tokens = .ok tokens')
    (htokens : tokens.length ≤ capacity) : tokens'.length ≤ capacity := by
  induction fuel generalizing pos tokens with
  | zero => simp [Protocol.protoTokenizeFrom] at h
  | succ fuel ih =>
    rw [Protocol.protoTokenizeFrom] at h
    by_cases hlt : pos < len
    · rw [if_pos hlt, bind_eq_ok] at h
      obtain ⟨start, -, h⟩ := h
      by_cases hend : start = len
      · rw [if_pos hend] at h
        exact Checked.ok.inj h ▸ htokens
      rw [if_neg hend] at h
      by_cases hfull : tokens.length = capacity
      · rw [if_pos hfull] at h
        cases h
      rw [if_neg hfull, bind_eq_ok] at h
      obtain ⟨stop, -, h⟩ := h
      refine ih h ?_
      rw [List.length_append, List.length_singleton]
      omega
    · rw [if_neg hlt] at h
      exact Checked.ok.inj h ▸ htokens

/-- The array holds the tokens found so far, so that it is written only at its next place. -/
theorem protoTokenizeFrom_eq (hb : b.length ≤ sizeMax) {fuel : ℕ} {tokens : List Token}
    (hpos : pos ≤ len) (htokens : tokens.length ≤ protoMaxTokens) :
    protoTokenizeFrom b len protoMaxTokens fuel pos tokens.length (tokenArray tokens) =
      Protocol.protoTokenizeFrom b len protoMaxTokens fuel pos tokens >>= fun found =>
        .ok (tokenArray found, found.length) := by
  induction fuel generalizing pos tokens with
  | zero => rfl
  | succ fuel ih =>
    rw [protoTokenizeFrom, Protocol.protoTokenizeFrom]
    by_cases hlt : pos < len
    · rw [if_pos hlt, if_pos hlt, advanceWhile_zero hb _ hpos, bind_assoc_checked]
      refine bind_congr_ok fun start hstart => ?_
      obtain ⟨-, hstart⟩ := advanceWhile_range hstart
      by_cases hend : start = len
      · rw [if_pos hend, if_pos hend, ok_bind]
      by_cases hfull : tokens.length = protoMaxTokens
      · rw [if_neg hend, if_neg hend, if_pos hfull, if_pos hfull, error_bind]
      have hroom : tokens.length < protoMaxTokens := Nat.lt_of_le_of_ne htokens hfull
      rw [if_neg hend, if_neg hend, if_neg hfull, if_neg hfull,
        advanceWhile_zero hb _ (show start ≤ len by omega), bind_assoc_checked]
      refine bind_congr_ok fun stop hstop => ?_
      obtain ⟨hle, hstop⟩ := advanceWhile_range hstop
      have hcount : tokens.length + 1 ≤ sizeMax :=
        Nat.le_trans hroom (show protoMaxTokens ≤ sizeMax by decide)
      have hlength : (tokens ++ [(⟨start, stop - start⟩ : Token)]).length = tokens.length + 1 :=
        List.length_append
      rw [sub_eq hle, ok_bind, writeToken_eq hroom, ok_bind, add_eq hcount, ok_bind, ← hlength]
      exact ih (by omega) (hlength ▸ hroom)
    · rw [if_neg hlt, if_neg hlt, ok_bind]

theorem protoTokenize_eq (hb : b.length ≤ sizeMax) :
    protoTokenize b len noTokens protoMaxTokens =
      Protocol.protoTokenize b len protoMaxTokens >>= fun found =>
        .ok (tokenArray found, found.length) := by
  have hempty : ([] : List Token).length ≤ protoMaxTokens := Nat.zero_le _
  exact protoTokenizeFrom_eq hb (Nat.zero_le len) hempty

theorem protoParseUintFrom_eq (hb : b.length ≤ sizeMax) (token : Token) {limit fuel i value : ℕ}
    (hlimit : limit ≤ sizeMax) (hfuel : token.len - i < fuel) :
    protoParseUintFrom b token limit fuel i value =
      Protocol.protoParseUintFrom b limit (token.len - i) (token.data + i) value := by
  induction fuel generalizing i value with
  | zero => omega
  | succ fuel ih =>
    unfold protoParseUintFrom
    by_cases hlt : i < token.len
    · obtain ⟨k, hk⟩ : ∃ k, token.len - i = k + 1 := ⟨token.len - i - 1, by omega⟩
      rw [if_pos hlt, hk, Protocol.protoParseUintFrom]
      refine bind_congr_ok fun ch hch => ?_
      have hread := readAt_lt hch
      by_cases hdigit : ch < 48 ∨ ch > 57
      · rw [if_pos hdigit, if_pos hdigit]
      obtain ⟨hlow, hhigh⟩ := not_or.mp hdigit
      rw [UInt8.not_lt, UInt8.le_iff_toNat_le] at hlow hhigh
      simp only [UInt8.reduceToNat] at hlow hhigh
      rw [if_neg hdigit, if_neg hdigit, sub_eq hlow, ok_bind]
      by_cases hexceeds : value > limit / 10 ∨ (value = limit / 10 ∧ ch.toNat - 48 > limit % 10)
      · rw [if_pos hexceeds]
        simp only [if_pos hexceeds]
      · -- a digit that the check lets through keeps the value within the limit
        have hvalue : value * 10 + (ch.toNat - 48) ≤ limit := by omega
        have hmod : (value * 10 + (ch.toNat - 48)) % 2 ^ 64 = value * 10 + (ch.toNat - 48) :=
          Nat.mod_eq_of_lt (Nat.lt_of_le_of_lt (hvalue.trans hlimit) (by decide))
        have hrest := @ih (i + 1) (value * 10 + (ch.toNat - 48)) (by omega)
        rw [show token.len - (i + 1) = k by omega] at hrest
        simp only [if_neg hexceeds, hmod]
        rw [mul, if_pos (by omega), ok_bind, add_eq (by omega), ok_bind, add_eq (by omega),
          ok_bind, hrest, Nat.add_assoc]
    · rw [if_neg hlt, show token.len - i = 0 by omega]
      rfl

theorem protoParseUint_eq (hb : b.length ≤ sizeMax) (token : Token) {limit : ℕ}
    (hlimit : limit ≤ sizeMax) :
    protoParseUint b token limit = Protocol.protoParseUint b token limit := by
  unfold protoParseUint Protocol.protoParseUint
  rw [protoParseUintFrom_eq hb token hlimit (by omega)]
  rfl

theorem protoCheckKey_eq (hb : b.length ≤ sizeMax) (token : Token) {fuel i : ℕ}
    (hfuel : token.len - i < fuel) :
    protoCheckKey b token fuel i = Protocol.protoCheckKey b (token.len - i) (token.data + i) := by
  induction fuel generalizing i with
  | zero => omega
  | succ fuel ih =>
    unfold protoCheckKey
    by_cases hlt : i < token.len
    · obtain ⟨k, hk⟩ : ∃ k, token.len - i = k + 1 := ⟨token.len - i - 1, by omega⟩
      rw [if_pos hlt, hk, Protocol.protoCheckKey]
      refine bind_congr_ok fun ch hch => ?_
      have hread := readAt_lt hch
      have hrest := ih (show token.len - (i + 1) < fuel by omega)
      rw [show token.len - (i + 1) = k by omega] at hrest
      rw [add_eq (by omega), ok_bind, hrest, Nat.add_assoc]
    · rw [if_neg hlt, show token.len - i = 0 by omega]
      rfl

theorem protoParseKey_eq (hb : b.length ≤ sizeMax) (token : Token) (cmd : Command) :
    protoParseKey b token cmd = Protocol.protoParseKey b token cmd := by
  unfold protoParseKey Protocol.protoParseKey
  rw [protoCheckKey_eq hb token (by omega)]
  rfl

theorem uint32Max_le : uint32Max ≤ sizeMax := by decide

theorem protoParseExptime_eq (hb : b.length ≤ sizeMax) (token : Token) (cmd : Command) :
    protoParseExptime b token cmd = Protocol.protoParseExptime b token cmd := by
  unfold protoParseExptime
  rw [protoParseUint_eq hb token uint32Max_le]
  rfl

theorem protoParseSetFields_eq (hb : b.length ≤ sizeMax) {tokens : List Token}
    (htokens : tokens.length ≤ protoMaxTokens) (cmd : Command) :
    protoParseSetFields b (tokenArray tokens) cmd = Protocol.protoParseSetFields b tokens cmd := by
  unfold protoParseSetFields
  simp only [readToken_eq htokens, protoParseUint_eq hb _ uint32Max_le,
    protoParseUint_eq hb _ (Nat.le_refl sizeMax), protoParseExptime_eq hb]
  rfl

theorem protoParseNoreply_eq (spec : CommandSpec) (hspec : spec.tokenCount + 1 ≤ sizeMax)
    {tokens : List Token} (htokens : tokens.length ≤ protoMaxTokens) (cmd : Command) :
    protoParseNoreply b spec (tokenArray tokens) tokens.length cmd =
      Protocol.protoParseNoreply b spec tokens cmd := by
  unfold protoParseNoreply Protocol.protoParseNoreply
  by_cases hcount : tokens.length = spec.tokenCount
  · rw [if_pos hcount, if_pos hcount]
  rw [if_neg hcount, if_neg hcount]
  by_cases hallows : spec.allowsNoreply = false
  · rw [if_pos hallows, if_pos (Or.inl hallows)]
  rw [if_neg hallows, add_eq hspec, ok_bind]
  by_cases hfull : tokens.length = spec.tokenCount + 1
  · rw [if_neg (not_not.mpr hfull), if_neg (not_or.mpr ⟨hallows, not_not.mpr hfull⟩),
      sub_eq (by omega), ok_bind, readToken_eq htokens]
  · rw [if_pos hfull, if_pos (Or.inr hfull)]

theorem protoFindCommand_tokenCount {name : Token} {spec : CommandSpec}
    (h : protoFindCommand b name = .ok (some spec)) : spec.tokenCount + 1 ≤ sizeMax := by
  have hfound : ∃ type, protoCommands type = spec := by
    unfold protoFindCommand at h
    grind [bind_eq_ok]
  obtain ⟨type, rfl⟩ := hfound
  cases type <;> decide

theorem protoParseTokens_eq (hb : b.length ≤ sizeMax) {tokens : List Token}
    (htokens : tokens.length ≤ protoMaxTokens) (cmd : Command) :
    protoParseTokens b (tokenArray tokens) tokens.length cmd =
      Protocol.protoParseTokens b tokens cmd := by
  unfold protoParseTokens Protocol.protoParseTokens
  by_cases hempty : tokens.length = 0
  · rw [if_pos hempty, if_pos hempty]
  rw [if_neg hempty, if_neg hempty, readToken_eq htokens]
  refine bind_congr_ok fun name _ => bind_congr_ok fun found hfound => ?_
  cases found with
  | none => rfl
  | some spec =>
    have hspec := protoFindCommand_tokenCount hfound
    refine (congrArg (· >>= _) (protoParseNoreply_eq spec hspec htokens _)).trans ?_
    refine bind_congr_ok fun cmd _ => ?_
    by_cases hdone : cmd.type = .version ∨ cmd.type = .quit
    · rw [if_pos hdone, if_pos hdone]
    rw [if_neg hdone, if_neg hdone, readToken_eq htokens]
    refine bind_congr_ok fun token _ => ?_
    rw [protoParseKey_eq hb]
    refine bind_congr_ok fun cmd _ => ?_
    cases cmd.type with
    | set => exact protoParseSetFields_eq hb htokens cmd
    | touch =>
      simp only [readToken_eq htokens]
      exact bind_congr_ok fun token _ => protoParseExptime_eq hb token cmd
    | _ => rfl

theorem protoParseGetKeysFrom_eq (hb : b.length ≤ sizeMax) {fuel : ℕ} (hpos : pos ≤ len) (cmd : Command) :
    protoParseGetKeysFrom b base len fuel pos cmd =
      Protocol.protoParseGetKeysFrom b (base + len) fuel (base + pos) cmd := by
  induction fuel generalizing pos cmd with
  | zero => rfl
  | succ fuel ih =>
    rw [protoParseGetKeysFrom, Protocol.protoParseGetKeysFrom]
    by_cases hlt : pos < len
    · rw [if_pos hlt, if_pos (by omega), show base + len - (base + pos) = len - pos by omega,
        ← advanceWhile_eq hb _ hpos (show len - pos < len + 1 by omega), bind_assoc_checked]
      refine bind_congr_ok fun start hstart => ?_
      obtain ⟨-, hstart⟩ := advanceWhile_within hpos hstart
      by_cases hend : start = len
      · rw [if_pos hend, ok_bind, if_pos (by omega)]
      rw [if_neg hend, ok_bind, if_neg (by omega),
        show base + len - (base + start) = len - start by omega,
        ← advanceWhile_eq hb _ (show start ≤ len by omega)
          (show len - start < len + 1 by omega), bind_assoc_checked]
      refine bind_congr_ok fun stop hstop => ?_
      obtain ⟨hle, hstop⟩ := advanceWhile_within hstart hstop
      rw [sub_eq hle, ok_bind, ok_bind, protoParseKey_eq hb,
        show base + stop - (base + start) = stop - start by omega]
      exact bind_congr_ok fun current _ => ih hstop _
    · rw [if_neg hlt, if_neg (by omega)]

theorem protoParseGetKeys_eq (hb : b.length ≤ sizeMax) (cmd : Command) :
    protoParseGetKeys b base len cmd = Protocol.protoParseGetKeys b base len cmd := by
  unfold protoParseGetKeys Protocol.protoParseGetKeys
  rw [protoParseGetKeysFrom_eq hb (Nat.zero_le _)]
  rfl

theorem protoIsGet_eq (hb : b.length ≤ sizeMax) {start : ℕ} (hstart : start ≤ len)
    (hlen : len ≤ b.length) : protoIsGet b len start = Protocol.protoIsGet b len start := by
  unfold protoIsGet Protocol.protoIsGet
  rw [sub_eq hstart, ok_bind]
  by_cases hshort : len - start < 3
  · rw [if_pos hshort, if_pos hshort]
  · rw [if_neg hshort, if_neg hshort, add_eq (show start + 3 ≤ sizeMax by omega)]
    rfl

theorem protoIsGet_room {start : ℕ} (h : Protocol.protoIsGet b len start = .ok true) :
    start + 3 ≤ len := by
  by_contra hshort
  rw [Protocol.protoIsGet, if_pos (by omega)] at h
  cases h

theorem protoParseHeader_eq (hb : b.length ≤ sizeMax) (hlen : len ≤ b.length) (cmd : Command) :
    protoParseHeader b len cmd = Protocol.protoParseHeader b len cmd := by
  unfold protoParseHeader Protocol.protoParseHeader
  rw [advanceWhile_zero hb _ (Nat.zero_le len), Nat.sub_zero]
  refine bind_congr_ok fun start hstart => ?_
  obtain ⟨-, hstart⟩ := advanceWhile_range hstart
  rw [Nat.zero_add] at hstart
  rw [protoIsGet_eq hb hstart hlen]
  refine bind_congr_ok fun isGet hget => ?_
  cases isGet with
  | true =>
    have hroom := protoIsGet_room hget
    simp only [if_true]
    rw [sub_eq hstart, ok_bind, sub_eq (by omega), ok_bind, add_eq (by omega), ok_bind,
      protoParseGetKeys_eq hb]
  | false =>
    simp only [Bool.false_eq_true, if_false]
    rw [protoTokenize_eq hb, bind_assoc_checked]
    refine bind_congr_ok fun tokens htokens => ?_
    exact protoParseTokens_eq hb (protoTokenizeFrom_length htokens (Nat.zero_le _)) cmd

theorem protoParseBody_eq (hb : b.length ≤ sizeMax) {offset : ℕ} (hoffset : offset ≤ b.length)
    (cmd : Command) :
    protoParseBody b b.length cmd offset = Protocol.protoParseBody b cmd offset := by
  unfold protoParseBody Protocol.protoParseBody
  rw [sub_eq (hoffset.trans hb), ok_bind]
  by_cases hroom : sizeMax - offset < 2
  · rw [if_pos hroom, if_pos (Or.inl hroom)]
  rw [if_neg hroom, sub_eq (by omega), ok_bind]
  by_cases hvalue : cmd.valueLen > sizeMax - offset - 2
  · rw [if_pos hvalue, if_pos (Or.inr hvalue)]
  rw [if_neg hvalue, if_neg (not_or.mpr ⟨hroom, hvalue⟩), sub_eq hoffset, ok_bind]
  by_cases hshort : b.length - offset < cmd.valueLen
  · rw [if_pos hshort, if_pos hshort]
  rw [if_neg hshort, add_eq (by omega), ok_bind, sub_eq (by omega), ok_bind]
  by_cases htrailing : b.length - offset - cmd.valueLen = 0
  · simp only [if_neg hshort, if_pos htrailing]
  · simp only [if_neg hshort, if_neg htrailing, add_eq (show offset + cmd.valueLen + 1 ≤ sizeMax
      by omega), add_eq (show offset + cmd.valueLen + 2 ≤ sizeMax by omega), ok_bind]

theorem parseFrame_eq (hb : b.length ≤ sizeMax) : parseFrame b = Protocol.parseFrame b := by
  unfold parseFrame Protocol.parseFrame
  rw [protoFindLine_eq hb]
  refine bind_congr_ok fun lineLen hline => ?_
  have hroom := protoFindLineFrom_range hline
  rw [protoParseHeader_eq hb (by omega)]
  refine bind_congr_ok fun parsed _ => ?_
  rw [add_eq (by omega), ok_bind, protoParseBody_eq hb hroom]

/-- The checks of `Guarded.parseFrame` never fail. -/
theorem parseFrame_ne_fault (hb : b.length ≤ sizeMax) : parseFrame b ≠ .fault := by
  rw [parseFrame_eq hb]
  exact Protocol.parseFrame_ne_fault b

theorem protocolParseCommand_eq (hb : b.length ≤ sizeMax) (cmd : Command) :
    protocolParseCommand b cmd = Protocol.protocolParseCommand b cmd := by
  unfold protocolParseCommand
  rw [parseFrame_eq hb]
  rfl

end Guarded

/-- The value of a command and the CRLF after it lie in the bytes that the command consumed. -/
theorem Frame.value_ended {b : List UInt8} {cmd : Command} {n v : ℕ} (h : Frame b cmd n)
    (hv : cmd.value = some v) :
    v + cmd.valueLen + 2 ≤ n ∧ (b.drop (v + cmd.valueLen)).take 2 = crlf := by
  cases h with
  | line hline hheader hset =>
    rw [hheader.inside.1] at hv
    cases hv
  | @data line data rest cmd hline hheader hset hdata hfits =>
    have hstart : line.length + 2 = v := Option.some.inj hv
    have hlen : (line ++ crlf ++ data).length = v + cmd.valueLen := by
      rw [List.length_append, List.length_append, hdata, ← hstart]
      rfl
    refine ⟨by simp only; omega, ?_⟩
    rw [← List.append_assoc, ← List.append_assoc, List.append_assoc _ crlf,
      List.drop_left' hlen]
    rfl

/-- No access of a call is out of bounds and no size it computes wraps. A command that it accepts
lies in the bytes it consumed. -/
theorem parser_inside (b : List UInt8) (hb : b.length ≤ sizeMax) (cmd : Command) :
    Guarded.protocolParseCommand b cmd = protocolParseCommand b cmd ∧
      ∃ code out n, Guarded.protocolParseCommand b cmd = some (code, out, n) ∧
        (code = .ok → n ≤ b.length ∧ out.Inside n ∧ ∀ v, out.value = some v →
          v + out.valueLen + 2 ≤ n ∧ (b.drop (v + out.valueLen)).take 2 = crlf) := by
  refine ⟨Guarded.protocolParseCommand_eq hb cmd, ?_⟩
  cases hrun : Guarded.parseFrame b with
  | fault => exact absurd hrun (Guarded.parseFrame_ne_fault hb)
  | error err =>
    refine ⟨.err err, cmd, 0, ?_, nofun⟩
    rw [Guarded.protocolParseCommand, hrun]
  | ok result =>
    obtain ⟨out, n⟩ := result
    refine ⟨.ok, out, n, ?_, fun _ => ?_⟩
    · rw [Guarded.protocolParseCommand, hrun]
    · rw [Guarded.parseFrame_eq hb] at hrun
      obtain ⟨-, hle, -⟩ := parseFrame_ok_prefix hrun
      have hframe := parseFrame_eq_ok_iff.mp hrun
      exact ⟨hle, hframe.inside, fun v hv => hframe.value_ended hv⟩

/-- `set k 0 0 2` with its value, and the first bytes of the next command. -/
theorem parser_inside_set :
    ∃ out, Guarded.protocolParseCommand
        (text ['s', 'e', 't', ' ', 'k', ' ', '0', ' ', '0', ' ', '2', '\r', '\n',
          'a', 'b', '\r', '\n', 'g', 'e']) {} = some (.ok, out, 17) ∧
      out.key = some 4 ∧ out.value = some 13 ∧ out.valueLen = 2 ∧ out.Inside 17 := by
  have hcall : protocolParseCommand
      (text ['s', 'e', 't', ' ', 'k', ' ', '0', ' ', '0', ' ', '2', '\r', '\n',
        'a', 'b', '\r', '\n', 'g', 'e']) {} =
      some (.ok, {
        key := some 4
        keyLen := 1
        keysEnd := some 5
        value := some 13
        valueLen := 2
        type := .set }, 17) := by decide +kernel
  obtain ⟨heq, code, out, n, hrun, hok⟩ := parser_inside
    (text ['s', 'e', 't', ' ', 'k', ' ', '0', ' ', '0', ' ', '2', '\r', '\n',
      'a', 'b', '\r', '\n', 'g', 'e']) (by decide) {}
  obtain ⟨rfl, rfl, rfl⟩ : code = .ok ∧ out = _ ∧ n = 17 := by
    rw [heq, hcall, Option.some.injEq, Prod.mk.injEq, Prod.mk.injEq] at hrun
    exact ⟨hrun.1.symm, hrun.2.1.symm, hrun.2.2.symm⟩
  exact ⟨_, hrun, rfl, rfl, rfl, (hok rfl).2.1⟩

end Kvx.Protocol
