import Mathlib.Tactic.Common
import Mathlib.Algebra.Order.Ring.Int
import Mathlib.Algebra.Order.Ring.Nat

/-!
# The LZ4 block format

A block is sequences, each some literals and then a match copied from what is already
out, ended by literals alone. `encodeSeqs` and `encodeLast` are the bytes of the format,
`expand` what they stand for. A match may reach past the end of the output it starts
from, and then repeats with the period of its offset (`copyMatch`); copying in chunks no
longer than the offset gives the same bytes (`copyMatch_chunk`).

The fact a compressor uses is `copyMatch_take` : a match whose bytes were compared
extends a prefix of the page to a longer prefix.
-/

namespace Inboard

namespace Lz4

/-! ## Matches -/

/-- Append `n` bytes to `out`, each the one `off` before the end. -/
def copyMatch (off : ℕ) : ℕ → List UInt8 → List UInt8
  | 0, out => out
  | n + 1, out => copyMatch off n (out ++ [out.getD (out.length - off) 0])

@[simp] theorem length_copyMatch (off : ℕ) :
    ∀ (n : ℕ) (out : List UInt8), (copyMatch off n out).length = out.length + n
  | 0, out => rfl
  | n + 1, out => by
    rw [copyMatch, length_copyMatch off n]
    simp
    omega

theorem copyMatch_add (off : ℕ) : ∀ (n k : ℕ) (out : List UInt8),
    copyMatch off (n + k) out = copyMatch off k (copyMatch off n out)
  | 0, k, out => by simp [copyMatch]
  | n + 1, k, out => by
    rw [Nat.succ_add, copyMatch, copyMatch_add off n k, copyMatch]

/-- A match keeps what is out. -/
theorem prefix_copyMatch (off : ℕ) :
    ∀ (n : ℕ) (out : List UInt8), List.IsPrefix out (copyMatch off n out)
  | 0, out => List.prefix_refl out
  | n + 1, out => (List.prefix_append out _).trans (prefix_copyMatch off n _)

/-- A chunk no longer than the offset is a plain copy. -/
theorem copyMatch_chunk {off : ℕ} (out : List UInt8) (hoff : off ≤ out.length) :
    ∀ {k : ℕ}, k ≤ off →
      copyMatch off k out = out ++ (out.drop (out.length - off)).take k
  | 0, _ => by simp [copyMatch]
  | k + 1, hk => by
    have hlen : out.length - off + k < out.length := by omega
    rw [copyMatch_add off k 1, copyMatch_chunk out hoff (by omega), copyMatch, copyMatch,
      List.append_assoc, List.take_add_one, List.getElem?_drop, List.getElem?_eq_getElem hlen]
    congr 2
    have htake : ((out.drop (out.length - off)).take k).length = k := by simp; omega
    simp only [List.length_append, htake, Option.toList_some]
    rw [show out.length + k - off = out.length - off + k by omega]
    simp [List.getD_eq_getElem?_getD, List.getElem?_append_left hlen, hlen]

/-- A match whose bytes were compared extends a prefix of `page`. -/
theorem copyMatch_take (page : List UInt8) {off p : ℕ} (hoff : 1 ≤ off) (hp : off ≤ p) :
    ∀ {n : ℕ}, p + n ≤ page.length →
      (∀ k < n, page.getD (p - off + k) 0 = page.getD (p + k) 0) →
      copyMatch off n (page.take p) = page.take (p + n)
  | 0, _, _ => rfl
  | n + 1, hn, h => by
    rw [copyMatch_add off n 1, copyMatch_take page hoff hp (by omega) fun k hk => h k (by omega),
      copyMatch, copyMatch, ← Nat.add_assoc, List.take_add_one,
      List.getElem?_eq_getElem (by omega)]
    have hlen : (page.take (p + n)).length = p + n := by simp; omega
    have hback : p + n - off = p - off + n := by omega
    have hget := h n (Nat.lt_succ_self n)
    rw [hlen, hback]
    simp only [List.getD_eq_getElem?_getD, List.getElem?_take_of_lt
        (by omega : p - off + n < p + n),
      List.getElem?_eq_getElem (by omega : p + n < page.length), Option.getD_some] at hget ⊢
    rw [hget, Option.toList_some]

/-! ## Bytes -/

/-- The extension of a length : 255 as often as it fits, then the rest. -/
def lenExt (n : ℕ) : List UInt8 :=
  List.replicate (n / 255) 255 ++ [UInt8.ofNat (n % 255)]

/-- The nibble of a length in the token. -/
def nibble (n : ℕ) : ℕ := min n 15

theorem nibble_le (n : ℕ) : nibble n ≤ 15 := Nat.min_le_right _ _

/-- What follows the nibble of a length. -/
def nibbleExt (n : ℕ) : List UInt8 := if n < 15 then [] else lenExt (n - 15)

/-- A token : the literal nibble over the match nibble. -/
def token (hi lo : ℕ) : UInt8 := UInt8.ofNat (16 * hi + lo)

/-- A 16-bit value, low byte first. -/
def le16 (n : ℕ) : List UInt8 := [UInt8.ofNat (n % 256), UInt8.ofNat (n / 256 % 256)]

@[simp] theorem length_le16 (n : ℕ) : (le16 n).length = 2 := rfl

@[simp] theorem length_lenExt (n : ℕ) : (lenExt n).length = n / 255 + 1 := by
  simp [lenExt]

theorem lenExt_of_lt {n : ℕ} (h : n < 255) : lenExt n = [UInt8.ofNat n] := by
  simp [lenExt, Nat.div_eq_of_lt h, Nat.mod_eq_of_lt h]

theorem lenExt_of_ge {n : ℕ} (h : 255 ≤ n) : lenExt n = 255 :: lenExt (n - 255) := by
  obtain ⟨k, rfl⟩ := Nat.exists_eq_add_of_le h
  have h1 : (255 + k) / 255 = k / 255 + 1 := by omega
  have h2 : (255 + k) % 255 = k % 255 := by omega
  simp [lenExt, h1, h2, List.replicate_succ]

theorem token_toNat {hi lo : ℕ} (hhi : hi ≤ 15) (hlo : lo ≤ 15) :
    (token hi lo).toNat = 16 * hi + lo := by
  rw [token, UInt8.toNat_ofNat']
  omega

theorem token_div {hi lo : ℕ} (hhi : hi ≤ 15) (hlo : lo ≤ 15) :
    (token hi lo).toNat / 16 = hi := by
  rw [token_toNat hhi hlo]
  omega

theorem token_mod {hi lo : ℕ} (hhi : hi ≤ 15) (hlo : lo ≤ 15) :
    (token hi lo).toNat % 16 = lo := by
  rw [token_toNat hhi hlo]
  omega

/-! ## Blocks -/

/-- Literals, then a match of length `len` from `off` back. -/
structure Seq where
  lits : List UInt8
  off : ℕ
  len : ℕ

/-- The bytes of a sequence. -/
def encodeSeq (s : Seq) : List UInt8 :=
  token (nibble s.lits.length) (nibble (s.len - 4)) :: nibbleExt s.lits.length ++ s.lits ++
    le16 s.off ++ nibbleExt (s.len - 4)

/-- The bytes of the last sequence, literals alone. -/
def encodeLast (lits : List UInt8) : List UInt8 :=
  token (nibble lits.length) 0 :: nibbleExt lits.length ++ lits

def encodeSeqs (seqs : List Seq) : List UInt8 := seqs.flatMap encodeSeq

/-- What a sequence adds to the output. -/
def Seq.expand (s : Seq) (out : List UInt8) : List UInt8 := copyMatch s.off s.len (out ++ s.lits)

/-- What sequences add to the output, in order. -/
def expand : List UInt8 → List Seq → List UInt8
  | out, [] => out
  | out, s :: seqs => expand (s.expand out) seqs

/-- A sequence the format can carry after `n` bytes of output. -/
structure Seq.Valid (s : Seq) (n : ℕ) : Prop where
  off_pos : 1 ≤ s.off
  off_lt : s.off < 2 ^ 16
  off_le : s.off ≤ n + s.lits.length
  len_ge : 4 ≤ s.len

/-- Sequences the format can carry, from `n` bytes of output on. -/
def SeqsValid : ℕ → List Seq → Prop
  | _, [] => True
  | n, s :: seqs => s.Valid n ∧ SeqsValid (n + s.lits.length + s.len) seqs

@[simp] theorem length_expand_seq (s : Seq) (out : List UInt8) :
    (s.expand out).length = out.length + s.lits.length + s.len := by
  simp [Seq.expand]

theorem length_le_expand : ∀ (out : List UInt8) (seqs : List Seq),
    out.length ≤ (expand out seqs).length
  | _, [] => Nat.le_refl _
  | out, s :: seqs => by
    have h := length_le_expand (s.expand out) seqs
    rw [length_expand_seq] at h
    rw [expand]
    omega

theorem expand_append : ∀ (out : List UInt8) (xs ys : List Seq),
    expand out (xs ++ ys) = expand (expand out xs) ys
  | _, [], _ => rfl
  | out, x :: xs, ys => expand_append (x.expand out) xs ys

theorem seqsValid_append : ∀ (out : List UInt8) (xs ys : List Seq),
    SeqsValid out.length (xs ++ ys) ↔
      SeqsValid out.length xs ∧ SeqsValid (expand out xs).length ys
  | _, [], _ => by simp [SeqsValid, expand]
  | out, x :: xs, ys => by
    have ih := seqsValid_append (x.expand out) xs ys
    rw [length_expand_seq] at ih
    simp only [List.cons_append, SeqsValid, expand, ih, and_assoc]

theorem encodeSeqs_append (xs ys : List Seq) :
    encodeSeqs (xs ++ ys) = encodeSeqs xs ++ encodeSeqs ys := by
  simp [encodeSeqs]

theorem length_nibbleExt (n : ℕ) :
    (nibbleExt n).length = if n < 15 then 0 else (n - 15) / 255 + 1 := by
  unfold nibbleExt
  split_ifs <;> simp

/-- A sequence grows what it stands for by at most a 255th. -/
theorem length_encodeSeq_le {s : Seq} (h : 4 ≤ s.len) :
    255 * (encodeSeq s).length ≤ 256 * (s.lits.length + s.len) := by
  simp only [encodeSeq, List.length_append, List.length_cons, length_le16, length_nibbleExt]
  split_ifs <;> omega

theorem length_encodeLast_le (lits : List UInt8) :
    255 * (encodeLast lits).length ≤ 256 * lits.length + 510 := by
  simp only [encodeLast, List.length_append, List.length_cons, length_nibbleExt]
  split_ifs <;> omega

theorem length_encodeSeqs_le : ∀ (out : List UInt8) (seqs : List Seq),
    SeqsValid out.length seqs →
      255 * (encodeSeqs seqs).length + 256 * out.length ≤ 256 * (expand out seqs).length
  | out, [], _ => by simp [encodeSeqs, expand]
  | out, s :: seqs, h => by
    have hs := length_encodeSeq_le h.1.len_ge
    have ih := length_encodeSeqs_le (s.expand out) seqs (by
      rw [length_expand_seq]
      exact h.2)
    rw [length_expand_seq] at ih
    rw [expand, encodeSeqs, List.flatMap_cons, List.length_append, ← encodeSeqs]
    omega

end Lz4

end Inboard
