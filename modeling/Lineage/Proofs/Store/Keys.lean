/-
  Lineage.Proofs.Store.Keys

  The keys of a durable store.

  The bytes of ids that are not negative are ordered as the ids are (`ObjectId.compare_bytes`).
  The key of an entry tells which object it belongs to and what its name is
  (`entryKey_inj`, `prefix_entryKey_iff`).
-/
import Mathlib.Algebra.Group.Nat.Defs
import Lineage.Store.Durable

namespace Lineage

/-! ## Ids as bytes -/

/-- The number that bytes stand for, the most significant one first. -/
def weight (bs : List UInt8) : Nat :=
  bs.foldl (fun acc b => acc * 256 + b.toNat) 0

theorem weight_cons (b : UInt8) (bs : List UInt8) :
    weight (b :: bs) = b.toNat * 256 ^ bs.length + weight bs := by
  have hfoldl (bs : List UInt8) (acc : Nat) : bs.foldl (fun acc b => acc * 256 + b.toNat) acc =
      acc * 256 ^ bs.length + weight bs := by
    induction bs generalizing acc with
    | nil => simp only [List.foldl_nil, List.length_nil, Nat.pow_zero, Nat.mul_one, weight,
        Nat.add_zero]
    | cons c bs ih =>
      have hweight : weight (c :: bs) = (0 * 256 + c.toNat) * 256 ^ bs.length + weight bs := ih _
      rw [List.foldl_cons, ih, hweight, List.length_cons, Nat.pow_succ]
      grind
  rw [weight, List.foldl_cons, hfoldl, Nat.zero_mul, Nat.zero_add]

theorem weight_lt (bs : List UInt8) : weight bs < 256 ^ bs.length := by
  induction bs with
  | nil => decide
  | cons b bs ih =>
    have hb : b.toNat ≤ 255 := Nat.le_of_lt_succ b.toNat_lt
    have hmul : b.toNat * 256 ^ bs.length ≤ 255 * 256 ^ bs.length := Nat.mul_le_mul_right _ hb
    rw [weight_cons, List.length_cons, Nat.pow_succ]
    omega

/-- Among texts of one length the order of bytes is that of numbers. -/
theorem compare_lt_of_weight_lt {bs cs : List UInt8} (hlen : bs.length = cs.length)
    (h : weight bs < weight cs) : compare bs cs = .lt := by
  induction bs generalizing cs with
  | nil =>
    obtain rfl : cs = [] := List.eq_nil_of_length_eq_zero hlen.symm
    exact absurd h (Nat.lt_irrefl _)
  | cons b bs ih =>
    cases cs with
    | nil => cases hlen
    | cons c cs =>
      have hlen' : bs.length = cs.length := Nat.succ.inj hlen
      rw [weight_cons, weight_cons, hlen'] at h
      have hcs := weight_lt cs
      show List.compareLex compare (b :: bs) (c :: cs) = .lt
      rw [List.compareLex_cons_cons]
      rcases Nat.lt_trichotomy b.toNat c.toNat with hlt | heq | hgt
      · have hbc : compare b c = .lt := Std.compare_eq_lt.mpr hlt
        rw [hbc]
        rfl
      · obtain rfl : b = c := UInt8.toNat_inj.mp heq
        have hself : compare b b = .eq := Std.ReflCmp.compare_self
        rw [hself]
        exact ih hlen' (by omega)
      · -- A greater first byte outweighs all that follow it.
        have hmul : (c.toNat + 1) * 256 ^ cs.length ≤ b.toNat * 256 ^ cs.length :=
          Nat.mul_le_mul_right _ hgt
        rw [Nat.add_mul] at hmul
        omega

namespace ObjectId

theorem weight_bytes (id : ObjectId) : weight id.bytes = id.number.toUInt64.toNat := by
  have hw : id.number.toUInt64.toNat < 0x10000000000000000 := id.number.toUInt64.toNat_lt
  simp only [weight, bytes, List.map_cons, List.map_nil, List.foldl_cons, List.foldl_nil]
  generalize id.number.toUInt64.toNat = w at hw
  simp only [UInt8.toNat_ofNat', Nat.shiftRight_eq_div_pow]
  omega

/-- Ids that are not negative are ordered as their bytes are. -/
theorem compare_bytes {i j : ObjectId} (hi : 0 ≤ i.number.toInt) (h : compare i j = .lt) :
    compare i.bytes j.bytes = .lt := by
  have hlt : i.number.toInt < j.number.toInt := by
    have hnumber : compare i.number j.number = .lt := h
    exact Int64.lt_iff_toInt_lt.mp (Std.compare_eq_lt.mp hnumber)
  have htoNat (n : Int64) (hn : 0 ≤ n.toInt) : (n.toUInt64.toNat : Int) = n.toInt := by
    have hcond : n.toInt = _ := BitVec.toInt_eq_toNat_cond n.toBitVec
    have hw : n.toBitVec.toNat < 2 ^ 64 := n.toBitVec.isLt
    show (n.toBitVec.toNat : Int) = n.toInt
    split at hcond <;> omega
  refine compare_lt_of_weight_lt (i.length_bytes.trans j.length_bytes.symm) ?_
  rw [weight_bytes, weight_bytes]
  have hi' := htoNat i.number hi
  have hj' := htoNat j.number (by omega)
  omega

end ObjectId

namespace DurableStore

/-! ## Keys of entries -/

theorem bytes_inj {i j : ObjectId} (h : i.bytes = j.bytes) : i = j := by
  have hi := ObjectId.ofBytes?_bytes i
  rw [h, ObjectId.ofBytes?_bytes j] at hi
  exact (Option.some.inj hi).symm

theorem entryKey_inj {i j : ObjectId} {name name' : String} :
    entryKey i name = entryKey j name' ↔ i = j ∧ name = name' := by
  constructor
  · intro h
    obtain ⟨hbytes, hname⟩ := List.append_inj h rfl
    refine ⟨bytes_inj hbytes, String.toByteArray_inj.mp (ByteArray.ext ?_)⟩
    exact Array.toList_inj.mp hname
  · rintro ⟨rfl, rfl⟩
    rfl

theorem isPrefixOf_iff {id : ObjectId} {key : List UInt8} :
    id.bytes.isPrefixOf key = true ↔ id.bytes <+: key := List.isPrefixOf_iff_prefix

/-- The entries of an object are those whose keys start with its bytes. -/
theorem prefix_entryKey_iff {i j : ObjectId} {name : String} :
    i.bytes <+: entryKey j name ↔ i = j := by
  constructor
  · rintro ⟨rest, hrest⟩
    exact bytes_inj (List.append_inj hrest rfl).1
  · rintro rfl
    exact List.prefix_append _ _

theorem entryName?_entryKey (id : ObjectId) (name : String) :
    entryName? (entryKey id name) = some name := by
  have hdrop : (entryKey id name).drop 8 = name.toUTF8.data.toList := by
    rw [entryKey, List.drop_append_of_le_length (Nat.le_of_eq id.length_bytes.symm)]
    rfl
  rw [entryName?, hdrop]
  exact dif_pos name.isValidUTF8

end DurableStore

end Lineage
