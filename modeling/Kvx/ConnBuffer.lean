import Mathlib.Order.Nat
import Kvx.Conn

/-!
# Growing, compacting and filling a buffer

The bytes in use are those between a position and a length. A larger block and a move to the
front keep them, and a store behind them appends to them.
-/
namespace Kvx.Net

variable {M : ℕ} {buf : List UInt8} {len pos : ℕ}

theorem growCap_spec {minCap fuel newCap : ℕ} (hmin : minCap ≤ M) (hnew : newCap ≤ M)
    (hpos : 0 < newCap) (hfuel : minCap ≤ newCap + fuel) :
    minCap ≤ growCap M minCap fuel newCap ∧ growCap M minCap fuel newCap ≤ M := by
  induction fuel generalizing newCap with
  | zero => exact ⟨hfuel, hnew⟩
  | succ fuel ih =>
    unfold growCap
    by_cases hlt : newCap < minCap
    · rw [if_pos hlt]
      by_cases hhalf : newCap > M / 2
      · rw [if_pos hhalf]
        exact ⟨hmin, le_rfl⟩
      · rw [if_neg hhalf]
        exact ih (by omega) (by omega) (by omega)
    · rw [if_neg hlt]
      exact ⟨not_lt.mp hlt, hnew⟩

theorem length_resize {cap : ℕ} (h : buf.length ≤ cap) (fill : ℕ → UInt8) :
    (resize buf cap fill).length = cap := by
  rw [resize, List.length_append, List.length_take, List.length_map, List.length_range]
  omega

theorem take_resize {cap : ℕ} (h : buf.length ≤ cap) (hlen : len ≤ buf.length)
    (fill : ℕ → UInt8) : (resize buf cap fill).take len = buf.take len := by
  rw [resize, List.take_of_length_le h, List.take_append_of_le_length hlen]

/-- A granted block is larger and keeps the bytes of the old one. -/
theorem bufferGrow_spec (realloc : Realloc) {cap extra : ℕ} (hM : connDefaultBufCap ≤ M)
    (hcap : buf.length = cap) (hroom : cap + extra ≤ M) (hextra : 0 < extra) :
    ((∃ size, realloc size = none) ∧ bufferGrow M realloc buf cap extra = .error .enomem) ∨
      ∃ buf', bufferGrow M realloc buf cap extra = .ok (buf', buf'.length) ∧
        cap + extra ≤ buf'.length ∧ buf'.length ≤ M ∧
        ∀ len ≤ cap, buf'.take len = buf.take len := by
  subst hcap
  unfold bufferGrow
  rw [if_neg (by omega), if_neg (by omega)]
  obtain ⟨hge, hle⟩ : buf.length + extra ≤ growCap M (buf.length + extra) (buf.length + extra)
        (if buf.length ≠ 0 then buf.length else connDefaultBufCap) ∧
      growCap M (buf.length + extra) (buf.length + extra)
        (if buf.length ≠ 0 then buf.length else connDefaultBufCap) ≤ M := by
    have hdefault : 0 < connDefaultBufCap := by decide
    apply growCap_spec hroom <;> split_ifs <;> omega
  simp only
  cases hr : realloc (growCap M (buf.length + extra) (buf.length + extra)
      (if buf.length ≠ 0 then buf.length else connDefaultBufCap)) with
  | none => exact Or.inl ⟨⟨_, hr⟩, rfl⟩
  | some fill =>
    have hlen := length_resize (Nat.le_of_add_right_le hge) fill
    refine Or.inr ⟨_, ?_, ?_, ?_, fun len hl => take_resize (Nat.le_of_add_right_le hge) hl fill⟩
    · rw [hlen]
    · rw [hlen]
      exact hge
    · rw [hlen]
      exact hle

theorem loadBytes_eq {n : ℕ} (h : pos + n ≤ buf.length) :
    loadBytes buf pos n = some ((buf.drop pos).take n) := if_pos h

theorem storeBytes_eq {bytes : List UInt8} (h : pos + bytes.length ≤ buf.length) :
    storeBytes buf pos bytes =
      some (buf.take pos ++ bytes ++ buf.drop (pos + bytes.length)) := if_pos h

theorem length_store {bytes : List UInt8} (h : pos + bytes.length ≤ buf.length) :
    (buf.take pos ++ bytes ++ buf.drop (pos + bytes.length)).length = buf.length := by
  rw [List.length_append, List.length_append, List.length_take, List.length_drop]
  omega

theorem bufferCompact_spec (hpos : pos ≤ len) (hlen : len ≤ buf.length) :
    ∃ buf', bufferCompact buf len pos = some (buf', len - pos, 0) ∧
      buf'.length = buf.length ∧ buf'.take (len - pos) = (buf.take len).drop pos := by
  unfold bufferCompact
  by_cases h0 : pos = 0
  · subst h0
    exact ⟨buf, by rw [if_pos rfl, Nat.sub_zero], rfl, by rw [Nat.sub_zero, List.drop_zero]⟩
  rw [if_neg h0]
  by_cases hrem : len - pos = 0
  · refine ⟨buf, by simp [hrem], rfl, ?_⟩
    rw [hrem, List.take_zero, List.drop_of_length_le]
    rw [List.length_take]
    omega
  · have hbytes : ((buf.drop pos).take (len - pos)).length = len - pos := by
      rw [List.length_take, List.length_drop]
      omega
    have hroom : 0 + ((buf.drop pos).take (len - pos)).length ≤ buf.length := by omega
    refine ⟨_, ?_, length_store hroom, ?_⟩
    · simp only [ne_eq, hrem, not_false_eq_true, if_true, Option.bind_eq_bind,
        loadBytes_eq (show pos + (len - pos) ≤ buf.length by omega), Option.bind_some,
        storeBytes_eq hroom]
    · rw [List.take_zero, List.nil_append, List.take_append_of_le_length hbytes.ge,
        List.take_of_length_le hbytes.le, List.drop_take]

theorem storeBytes_window {bytes : List UInt8} (hpos : pos ≤ len)
    (hfit : len + bytes.length ≤ buf.length) :
    ∃ buf', storeBytes buf len bytes = some buf' ∧ buf'.length = buf.length ∧
      (buf'.take (len + bytes.length)).drop pos = (buf.take len).drop pos ++ bytes := by
  refine ⟨_, storeBytes_eq hfit, length_store hfit, ?_⟩
  have hlen : (buf.take len ++ bytes).length = len + bytes.length := by
    rw [List.length_append, List.length_take]
    omega
  rw [List.take_append_of_le_length hlen.ge, List.take_of_length_le hlen.le,
    List.drop_append_of_le_length]
  rw [List.length_take]
  omega

theorem connInit_blocks {rRealloc wRealloc : Realloc} {conn : Conn}
    (hM : connDefaultBufCap ≤ M) (hinit : connInit M rRealloc wRealloc = (conn, none)) :
    ∃ rBuf wBuf : List UInt8, rBuf.length ≤ M ∧ wBuf.length ≤ M ∧ conn = {
      rBuf := rBuf
      rBufCap := rBuf.length
      wBuf := wBuf
      wBufCap := wBuf.length } := by
  have hdefault : 0 < connDefaultBufCap := by decide
  have hroom : 0 + connDefaultBufCap ≤ M := by omega
  have hnil : ([] : List UInt8).length = 0 := rfl
  unfold connInit at hinit
  rw [if_neg (by omega)] at hinit
  rcases bufferGrow_spec rRealloc hM hnil hroom hdefault with ⟨-, herr⟩ | ⟨rBuf, hr, -, hle, -⟩
  · simp [herr] at hinit
  rcases bufferGrow_spec wRealloc hM hnil hroom hdefault with ⟨-, herr⟩ | ⟨wBuf, hw, -, hle', -⟩
  · simp [hr, herr] at hinit
  rw [hr, hw] at hinit
  injection hinit with hconn
  exact ⟨rBuf, wBuf, hle, hle', hconn.symm⟩

end Kvx.Net
