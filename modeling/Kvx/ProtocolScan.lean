import Kvx.Lib.Runs
import Kvx.Protocol

/-!
# What the scanners read

The words of a line are its maximal runs of bytes other than space and tab. The token
loops go through them in order, and the loops over one token decide on its bytes.
-/
namespace Kvx.Protocol

open Kvx.Lib

def isWordByte (ch : UInt8) : Bool := !protoIsSeparator ch

/-- The words of the line from position `pos` on. -/
def wordsFrom (line : List UInt8) (pos : ℕ) : List Run := runs isWordByte pos (line.drop pos)

def words (line : List UInt8) : List Run := runs isWordByte 0 line

def Token.ofRun (r : Run) : Token := ⟨r.start, r.len⟩

variable {b line : List UInt8} {pos n : ℕ} {r : Run} {cmd : Command}

theorem wordsFrom_zero (line : List UInt8) : wordsFrom line 0 = words line := rfl

theorem wordsFrom_within (h : r ∈ wordsFrom line pos) (hpos : pos ≤ line.length) :
    0 < r.len ∧ r.start + r.len ≤ line.length := by
  obtain ⟨hlen, hle⟩ := runs_within h
  rw [List.length_drop] at hle
  exact ⟨hlen, by omega⟩

theorem words_within (h : r ∈ words line) : 0 < r.len ∧ r.start + r.len ≤ line.length := by
  rw [← wordsFrom_zero] at h
  exact wordsFrom_within h (Nat.zero_le _)

theorem of_length (h : r.start + r.len ≤ line.length) : (r.of line).length = r.len := by
  rw [Run.of, List.length_take, List.length_drop]
  omega

theorem advanceWhile_eq (accept : UInt8 → Bool) (h : pos ≤ line.length) :
    advanceWhile accept line (line.length - pos) pos =
      .ok (pos + ((line.drop pos).takeWhile accept).length) := by
  induction hn : line.length - pos generalizing pos with
  | zero =>
    rw [List.drop_of_length_le (by omega)]
    rfl
  | succ n ih =>
    have hlt : pos < line.length := by omega
    have hn' : line.length - (pos + 1) = n := by omega
    rw [List.drop_eq_getElem_cons hlt]
    simp only [advanceWhile, readAt_eq (List.getElem?_eq_getElem hlt), ok_bind]
    cases ha : accept (line)[pos] with
    | false => simp [ha]
    | true =>
      have hrest := ih (show pos + 1 ≤ line.length from hlt) hn'
      rw [if_pos rfl, hrest, List.takeWhile_cons_of_pos ha, List.length_cons, Nat.add_assoc,
        Nat.add_comm 1]

theorem words_step (h : pos ≤ line.length) :
    ∃ start, advanceWhile protoIsSeparator line (line.length - pos) pos = .ok start ∧
      start ≤ line.length ∧
      ((start = line.length ∧ wordsFrom line pos = []) ∨
        (start < line.length ∧ ∃ stop,
          advanceWhile isWordByte line (line.length - start) start = .ok stop ∧
          pos < stop ∧ stop ≤ line.length ∧
          wordsFrom line pos = ⟨start, stop - start⟩ :: wordsFrom line stop)) := by
  have hskip := runs_skip (p := isWordByte) pos (line.drop pos)
  have hsep : (fun ch => !isWordByte ch) = protoIsSeparator := by
    funext ch
    exact Bool.not_not _
  rw [hsep] at hskip
  have hdrop := drop_takeWhile protoIsSeparator (line.drop pos)
  have hlen := length_takeWhile_le protoIsSeparator (line.drop pos)
  rw [List.length_drop] at hlen
  rw [List.drop_drop] at hdrop
  refine ⟨_, advanceWhile_eq protoIsSeparator h, by omega, ?_⟩
  generalize hstart : pos + ((line.drop pos).takeWhile protoIsSeparator).length = start at *
  rw [← hdrop] at hskip
  rcases Nat.lt_or_ge start line.length with hlt | hge
  · have hhead : isWordByte (line)[start] = true := by
      have hd := List.head?_dropWhile_not protoIsSeparator (line.drop pos)
      rw [← hdrop, List.drop_eq_getElem_cons hlt, List.head?_cons] at hd
      exact congrArg not hd
    have hcons := List.drop_eq_getElem_cons hlt
    have hword := advanceWhile_eq isWordByte hlt.le
    have hle := length_takeWhile_le isWordByte (line.drop start)
    have hpos : 0 < ((line.drop start).takeWhile isWordByte).length := by
      rw [hcons, List.takeWhile_cons_of_pos hhead]
      exact Nat.succ_pos _
    rw [List.length_drop] at hle
    refine Or.inr ⟨hlt, _, hword, by omega, by omega, ?_⟩
    unfold wordsFrom
    rw [hskip, hcons, runs_take hhead, ← hcons, ← drop_takeWhile, List.drop_drop,
      Nat.add_sub_cancel_left]
  · refine Or.inl ⟨by omega, ?_⟩
    unfold wordsFrom
    rw [hskip, List.drop_of_length_le hge]
    rfl

theorem protoTokenizeFrom_eq {capacity fuel : ℕ} {tokens : List Token} (h : pos ≤ line.length)
    (hfuel : line.length - pos < fuel) (hcap : tokens.length ≤ capacity) :
    protoTokenizeFrom line line.length capacity fuel pos tokens =
      if tokens.length + (wordsFrom line pos).length ≤ capacity then
        .ok (tokens ++ (wordsFrom line pos).map Token.ofRun)
      else .error .invalidArguments := by
  induction fuel generalizing pos tokens with
  | zero => omega
  | succ fuel ih =>
    unfold protoTokenizeFrom
    by_cases hlt : pos < line.length
    · rw [if_pos hlt]
      obtain ⟨start, hskip, hle, ⟨hend, hnil⟩ | ⟨hstart, stop, hword, hpos, hstop, hcons⟩⟩ :=
        words_step h
      · rw [hskip, ok_bind, if_pos hend, hnil]
        simp [hcap]
      · rw [hskip, ok_bind, if_neg hstart.ne, hcons]
        by_cases hfull : tokens.length = capacity
        · rw [if_pos hfull, if_neg (by rw [List.length_cons]; omega)]
        · have hlen : (tokens ++ [(⟨start, stop - start⟩ : Token)]).length = tokens.length + 1 := by
            simp
          have hroom : (tokens ++ [(⟨start, stop - start⟩ : Token)]).length ≤ capacity := by
            rw [hlen]
            omega
          have hrest := ih hstop (by omega) hroom
          have hunfold : (fun ch => !protoIsSeparator ch) = isWordByte := rfl
          rw [if_neg hfull, hunfold, hword, ok_bind, hrest, hlen, List.length_cons,
            Nat.add_assoc, Nat.add_comm 1]
          simp [Token.ofRun]
    · have hnil : wordsFrom line pos = [] := by
        rw [wordsFrom, List.drop_of_length_le (by omega), runs]
      rw [if_neg hlt, hnil]
      simp [hcap]

theorem protoTokenize_eq (line : List UInt8) (capacity : ℕ) :
    protoTokenize line line.length capacity =
      if (words line).length ≤ capacity then .ok ((words line).map Token.ofRun)
      else .error .invalidArguments := by
  rw [protoTokenize, protoTokenizeFrom_eq (Nat.zero_le _) (by omega) (Nat.zero_le _),
    wordsFrom_zero]
  simp

/-- 1 to 250 bytes, none of them a control character or a space. -/
def KeyOk (s : List UInt8) : Prop :=
  1 ≤ s.length ∧ s.length ≤ 250 ∧ ∀ ch ∈ s, 0x20 < ch ∧ ch ≠ 0x7f

theorem protoCheckKey_ok (h : pos + n ≤ b.length)
    (hbytes : ∀ ch ∈ (b.drop pos).take n, 0x20 < ch ∧ ch ≠ 0x7f) :
    protoCheckKey b n pos = .ok () := by
  induction n generalizing pos with
  | zero => rfl
  | succ n ih =>
    have hlt : pos < b.length := by omega
    rw [List.drop_eq_getElem_cons hlt, List.take_succ_cons, List.forall_mem_cons] at hbytes
    obtain ⟨⟨hlow, hdel⟩, hrest⟩ := hbytes
    unfold protoCheckKey
    rw [readAt_eq (List.getElem?_eq_getElem hlt), ok_bind,
      if_neg (not_or.mpr ⟨UInt8.not_le.mpr hlow, hdel⟩)]
    exact ih (by omega) hrest

theorem protoCheckKey_error (h : pos + n ≤ b.length)
    (hbytes : ¬ ∀ ch ∈ (b.drop pos).take n, 0x20 < ch ∧ ch ≠ 0x7f) :
    protoCheckKey b n pos = .error .invalidArguments := by
  induction n generalizing pos with
  | zero => simp at hbytes
  | succ n ih =>
    have hlt : pos < b.length := by omega
    rw [List.drop_eq_getElem_cons hlt, List.take_succ_cons, List.forall_mem_cons] at hbytes
    unfold protoCheckKey
    rw [readAt_eq (List.getElem?_eq_getElem hlt), ok_bind]
    by_cases hbad : b[pos] ≤ 0x20 ∨ b[pos] = 0x7f
    · exact if_pos hbad
    · obtain ⟨hlow, hdel⟩ := not_or.mp hbad
      rw [if_neg hbad]
      exact ih (by omega) fun hrest => hbytes ⟨⟨UInt8.not_le.mp hlow, hdel⟩, hrest⟩

theorem protoParseKey_ok (h : r.start + r.len ≤ line.length) (hk : KeyOk (r.of line))
    (cmd : Command) :
    protoParseKey line (Token.ofRun r) cmd = .ok { cmd with
      key := some r.start
      keyLen := r.len
      keysEnd := some (r.start + r.len) } := by
  obtain ⟨hpos, hmax, hbytes⟩ := hk
  rw [of_length h] at hpos hmax
  have hcheck := protoCheckKey_ok h hbytes
  unfold protoParseKey protoMaxKeyLength Token.ofRun
  rw [if_neg (by simp only; omega), if_neg (by simp only; omega), hcheck]
  rfl

theorem protoParseKey_error (h : r.start + r.len ≤ line.length) (hk : ¬ KeyOk (r.of line))
    (cmd : Command) : ∃ err, protoParseKey line (Token.ofRun r) cmd = .error err := by
  unfold protoParseKey protoMaxKeyLength Token.ofRun
  by_cases hpos : r.len = 0
  · exact ⟨_, if_pos hpos⟩
  by_cases hmax : r.len > 250
  · exact ⟨_, by rw [if_neg hpos, if_pos hmax]⟩
  · have hbytes : ¬ ∀ ch ∈ r.of line, 0x20 < ch ∧ ch ≠ 0x7f := by
      intro hall
      refine hk ⟨?_, ?_, hall⟩ <;> rw [of_length h] <;> omega
    rw [if_neg hpos, if_neg hmax, protoCheckKey_error h hbytes]
    exact ⟨_, rfl⟩

def IsDigit (ch : UInt8) : Prop := 48 ≤ ch ∧ ch ≤ 57

instance (ch : UInt8) : Decidable (IsDigit ch) := inferInstanceAs (Decidable (_ ∧ _))

def Digits (s : List UInt8) : Prop := ∀ ch ∈ s, IsDigit ch

instance (s : List UInt8) : Decidable (Digits s) := List.decidableBAll _ s

/-- The value of a digit string that continues one of value `value`. -/
def decimalFrom (value : ℕ) (s : List UInt8) : ℕ :=
  s.foldl (fun value ch => value * 10 + (ch.toNat - 48)) value

def decimal (s : List UInt8) : ℕ := decimalFrom 0 s

theorem le_decimalFrom (value : ℕ) (s : List UInt8) : value ≤ decimalFrom value s := by
  induction s generalizing value with
  | nil => exact le_rfl
  | cons ch s ih =>
    have := ih (value * 10 + (ch.toNat - 48))
    simp only [decimalFrom, List.foldl_cons] at this ⊢
    omega

theorem digit_exceeds {limit value digit : ℕ} (hd : digit ≤ 9) :
    (value > limit / 10 ∨ (value = limit / 10 ∧ digit > limit % 10)) ↔
      limit < value * 10 + digit := by
  omega

theorem protoParseUintFrom_eq {limit value : ℕ} (hlimit : limit < 2 ^ 64)
    (h : pos + n ≤ b.length) (hvalue : value ≤ limit) :
    protoParseUintFrom b limit n pos value =
      .ok (if Digits ((b.drop pos).take n) ∧
          decimalFrom value ((b.drop pos).take n) ≤ limit then
        some (decimalFrom value ((b.drop pos).take n)) else none) := by
  unfold Digits
  induction n generalizing pos value with
  | zero => simp [protoParseUintFrom, decimalFrom, hvalue]
  | succ n ih =>
    have hlt : pos < b.length := by omega
    rw [List.drop_eq_getElem_cons hlt, List.take_succ_cons]
    simp only [protoParseUintFrom, readAt_eq (List.getElem?_eq_getElem hlt), ok_bind,
      List.forall_mem_cons]
    by_cases hdigit : IsDigit b[pos]
    · have hnine : b[pos].toNat - 48 ≤ 9 := by
        have := UInt8.le_iff_toNat_le.mp hdigit.2
        simp at this
        omega
      have hbad : ¬ (b[pos] < 48 ∨ b[pos] > 57) :=
        not_or.mpr ⟨UInt8.not_lt.mpr hdigit.1, UInt8.not_lt.mpr hdigit.2⟩
      have hstep : decimalFrom value (b[pos] :: (b.drop (pos + 1)).take n) =
          decimalFrom (value * 10 + (b[pos].toNat - 48)) ((b.drop (pos + 1)).take n) := rfl
      rw [if_neg hbad, hstep]
      by_cases hexceeds : limit < value * 10 + (b[pos].toNat - 48)
      · have hmono := le_decimalFrom (value * 10 + (b[pos].toNat - 48))
          ((b.drop (pos + 1)).take n)
        rw [if_pos ((digit_exceeds hnine).mpr hexceeds), if_neg]
        rintro ⟨-, hle⟩
        omega
      · rw [if_neg (mt (digit_exceeds hnine).mp hexceeds), Nat.mod_eq_of_lt (by omega),
          ih (by omega) (by omega)]
        simp [hdigit]
    · have hbad : b[pos] < 48 ∨ b[pos] > 57 := by
        unfold IsDigit at hdigit
        rcases not_and_or.mp hdigit with hlow | hhigh
        · exact Or.inl (UInt8.not_le.mp hlow)
        · exact Or.inr (UInt8.not_le.mp hhigh)
      rw [if_pos hbad, if_neg]
      exact fun hall => hdigit hall.1.1

/-- A nonempty digit string with a value of at most `limit`. -/
def IsUint (limit : ℕ) (s : List UInt8) : Prop :=
  s ≠ [] ∧ (∀ ch ∈ s, IsDigit ch) ∧ decimal s ≤ limit

instance (limit : ℕ) (s : List UInt8) : Decidable (IsUint limit s) :=
  inferInstanceAs (Decidable (_ ∧ _))

theorem protoParseUint_eq {limit : ℕ} (hlimit : limit < 2 ^ 64)
    (h : r.start + r.len ≤ line.length) :
    protoParseUint line (Token.ofRun r) limit =
      .ok (if IsUint limit (r.of line) then some (decimal (r.of line)) else none) := by
  unfold protoParseUint Token.ofRun
  by_cases h0 : r.len = 0
  · have hnil : r.of line = [] := List.eq_nil_of_length_eq_zero (by rw [of_length h, h0])
    rw [if_pos h0, if_neg fun huint => huint.1 hnil]
  · have hne : r.of line ≠ [] := by
      intro hnil
      have hlen := of_length h
      rw [hnil] at hlen
      exact h0 hlen.symm
    rw [if_neg h0, protoParseUintFrom_eq hlimit h (Nat.zero_le _), ← Run.of]
    by_cases huint : Digits (r.of line) ∧ decimal (r.of line) ≤ limit
    · rw [if_pos (show IsUint limit (r.of line) from ⟨hne, huint⟩)]
      exact congrArg Checked.ok (if_pos huint)
    · rw [if_neg (show ¬ IsUint limit (r.of line) from fun hu => huint hu.2)]
      exact congrArg Checked.ok (if_neg huint)

end Kvx.Protocol
