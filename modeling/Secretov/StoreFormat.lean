import Secretov.StoreRuns
import Mathlib.Algebra.GroupWithZero.Nat
import Mathlib.Order.Basic

/-! The bytes of a store file (store.hpp, store.cpp). A field read at an offset
comes with the proof that it lies inside the buffer. -/

namespace Secretov

abbrev Fixed (n : Nat) := { b : Bytes // b.length = n }

def crypto_pwhash_SALTBYTES : Nat := 16
def crypto_secretbox_NONCEBYTES : Nat := 24
def crypto_secretbox_KEYBYTES : Nat := 32
def crypto_secretbox_MACBYTES : Nat := 16

/-- libsodium on bytes. A secretbox is MACBYTES longer than its message. -/
structure Libsodium where
  pwhash : Bytes → Fixed crypto_pwhash_SALTBYTES → UInt64 → UInt64 → Fixed crypto_secretbox_KEYBYTES
  secretboxEasy : Bytes → Fixed crypto_secretbox_NONCEBYTES → Fixed crypto_secretbox_KEYBYTES → Bytes
  secretboxOpenEasy :
    Bytes → Fixed crypto_secretbox_NONCEBYTES → Fixed crypto_secretbox_KEYBYTES → Option Bytes
  length_easy : ∀ m n k, (secretboxEasy m n k).length = m.length + crypto_secretbox_MACBYTES
  length_open : ∀ c n k m, secretboxOpenEasy c n k = some m → m.length + crypto_secretbox_MACBYTES = c.length

def Libsodium.sodium (lib : Libsodium) : Sodium where
  Salt := Fixed crypto_pwhash_SALTBYTES
  Nonce := Fixed crypto_secretbox_NONCEBYTES
  Key := Fixed crypto_secretbox_KEYBYTES
  KeyBox := Fixed (crypto_secretbox_KEYBYTES + crypto_secretbox_MACBYTES)
  Box := { b : Bytes // crypto_secretbox_MACBYTES ≤ b.length }
  pwhash := lib.pwhash
  secretboxKeyEasy m n k := ⟨lib.secretboxEasy m n k, by rw [lib.length_easy, m.2]⟩
  secretboxKeyOpenEasy box n k :=
    match h : lib.secretboxOpenEasy box n k with
    | none => none
    | some m => some ⟨m, by have := lib.length_open _ _ _ _ h; rw [box.2] at this; omega⟩
  secretboxEasy m n k := ⟨lib.secretboxEasy m n k, by rw [lib.length_easy]; omega⟩
  secretboxOpenEasy box n k := lib.secretboxOpenEasy box n k

theorem Libsodium.openKey_eq_some (lib : Libsodium) {box : lib.sodium.KeyBox} {n : lib.sodium.Nonce}
    {k m : lib.sodium.Key} : lib.sodium.secretboxKeyOpenEasy box n k = some m ↔
      lib.secretboxOpenEasy box.1 n k = some m.1 := by
  simp only [sodium]
  split
  · simp_all
  · rename_i opened heq
    have hsome : (some opened = some m.1) ↔ opened = m.1 := Option.some_inj
    refine Iff.trans ?_ ((Eq.congr_left heq).trans hsome).symm
    exact Option.some_inj.trans Subtype.ext_iff

def kMagic : Bytes := text "SCTV"
def kVersion1 : UInt8 := 1
def kVersion2 : UInt8 := 2

def kSaltOffset : Nat := 4 + 1
def kOpslimitOffset : Nat := kSaltOffset + crypto_pwhash_SALTBYTES
def kMemlimitOffset : Nat := kOpslimitOffset + 8
def kCreatedOffset : Nat := kMemlimitOffset + 8
def kCommonHeaderSize : Nat := kCreatedOffset + 8
def kHeaderSizeV1 : Nat := kCommonHeaderSize + crypto_secretbox_NONCEBYTES
def kHeaderSizeV2 : Nat := kCommonHeaderSize + crypto_secretbox_NONCEBYTES +
  (crypto_secretbox_KEYBYTES + crypto_secretbox_MACBYTES) + crypto_secretbox_NONCEBYTES

def putU64Le (v : UInt64) : Bytes :=
  (List.range 8).map fun i => (v >>> UInt64.ofNat (8 * i)).toUInt8

def getU64Le (p : Bytes) : UInt64 :=
  (List.range 8).foldl (fun v i => v ||| ((p.getD i 0).toUInt64 <<< UInt64.ofNat (8 * i))) 0

theorem byte_getLsbD (v : UInt64) {i j : Nat} (hi : i < 8) (hj : j < 64) :
    ((v >>> UInt64.ofNat (8 * i)).toUInt8.toUInt64 <<< UInt64.ofNat (8 * i)).toBitVec.getLsbD j =
      (decide (8 * i ≤ j ∧ j < 8 * i + 8) && v.toBitVec.getLsbD j) := by
  have hmod : 8 * i % 2 ^ 64 % (64 : BitVec 64).toNat = 8 * i := by
    rw [show (64 : BitVec 64).toNat = 64 from rfl]
    omega
  simp only [UInt64.toBitVec_shiftLeft, UInt8.toBitVec_toUInt64, UInt64.toBitVec_toUInt8,
    UInt64.toBitVec_shiftRight]
  simp only [UInt64.toBitVec_ofNat', BitVec.toNat_umod, BitVec.toNat_ofNat, hmod, BitVec.shiftLeft_eq',
    BitVec.ushiftRight_eq', BitVec.getLsbD_shiftLeft, BitVec.getLsbD_setWidth, BitVec.getLsbD_ushiftRight]
  by_cases hk : 8 * i ≤ j ∧ j < 8 * i + 8
  · have hge : ¬ j < 8 * i := by omega
    have hlt : j - 8 * i < 8 := by omega
    have hlt64 : j - 8 * i < 64 := by omega
    have hadd : 8 * i + (j - 8 * i) = j := by omega
    simp [hk, hj, hge, hlt, hadd, hlt64]
  · have hout : j < 8 * i ∨ ¬ j - 8 * i < 8 := by omega
    rcases hout with h | h <;> simp [hk, h]

theorem getU64Le_putU64Le (v : UInt64) : getU64Le (putU64Le v) = v := by
  have hr : List.range 8 = [0, 1, 2, 3, 4, 5, 6, 7] := by decide
  apply UInt64.eq_of_toBitVec_eq
  apply BitVec.eq_of_getLsbD_eq
  intro j hj
  have hb (i : Nat) (hi : i < 8) := byte_getLsbD v hi hj
  simp only [getU64Le, putU64Le, hr, List.foldl_cons, List.foldl_nil, List.map_cons, List.map_nil,
    List.getD_cons_zero, List.getD_cons_succ, UInt64.toBitVec_or, BitVec.getLsbD_or]
  rw [hb 0 (by decide), hb 1 (by decide), hb 2 (by decide), hb 3 (by decide), hb 4 (by decide),
    hb 5 (by decide), hb 6 (by decide), hb 7 (by decide)]
  cases v.toBitVec.getLsbD j
  · simp
  · simp
    omega

@[simp] theorem length_putU64Le (v : UInt64) : (putU64Le v).length = 8 := by
  simp [putU64Le]

def readFixed (buf : Bytes) (offset n : Nat) (h : offset + n ≤ buf.length) : Fixed n :=
  ⟨(buf.drop offset).take n, by rw [List.length_take, List.length_drop]; omega⟩

variable {lib : Libsodium}

def readCommonHeader (buf : Bytes) (h : kCommonHeaderSize ≤ buf.length) :
    Except Error (Header lib.sodium) := do
  let header : Header lib.sodium :=
    { salt := readFixed buf kSaltOffset crypto_pwhash_SALTBYTES (Nat.le_trans (by decide) h)
      opslimit := getU64Le (readFixed buf kOpslimitOffset 8 (Nat.le_trans (by decide) h)).1
      memlimit := getU64Le (readFixed buf kMemlimitOffset 8 (Nat.le_trans (by decide) h)).1
      keyCreatedAt := getU64Le (readFixed buf kCreatedOffset 8 (Nat.le_trans (by decide) h)).1 }
  checkKdfParams header.opslimit header.memlimit
  return header

def storeFields (envelope : Envelope lib.sodium) (payloadNonce : lib.sodium.Nonce)
    (ciphertext : lib.sodium.Box) : List Bytes :=
  [kMagic, [kVersion2], envelope.salt.1, putU64Le envelope.opslimit, putU64Le envelope.memlimit,
    putU64Le envelope.keyCreatedAt, envelope.wrapNonce.1, envelope.wrappedKey.1, payloadNonce.1, ciphertext.1]

def encodeStore (envelope : Envelope lib.sodium) (payloadNonce : lib.sodium.Nonce)
    (ciphertext : lib.sodium.Box) : Bytes :=
  (storeFields envelope payloadNonce ciphertext).flatten

/-- The checks and reads of `Store::open` up to the first key derivation. -/
def decodeStore (path : Bytes) (buf : Bytes) : Except Error (StoreFile lib.sodium) :=
  if buf.length < 4 + 1 ∨ buf.take 4 ≠ kMagic then
    .error (.runtimeError (text "not a secretov store: '" ++ path ++ text "'"))
  else
    let version := buf.getD 4 0
    if version = kVersion1 then
      if h : buf.length < kHeaderSizeV1 + crypto_secretbox_MACBYTES then
        .error (.runtimeError (text "corrupted store: truncated header or ciphertext"))
      else do
        let header ← readCommonHeader buf (Nat.le_trans (by decide) (Nat.not_lt.mp h))
        let payloadNonce := readFixed buf kCommonHeaderSize crypto_secretbox_NONCEBYTES
          (Nat.le_trans (by decide) (Nat.not_lt.mp h))
        return .version1 header payloadNonce
          ⟨buf.drop kHeaderSizeV1, by rw [List.length_drop]; omega⟩
    else if version ≠ kVersion2 then
      .error (.runtimeError (text "unsupported version: " ++ decimal version.toNat))
    else if h : buf.length < kHeaderSizeV2 + crypto_secretbox_MACBYTES then
      .error (.runtimeError (text "corrupted store: truncated header or ciphertext: '" ++ path ++ text "'"))
    else do
      let header ← readCommonHeader buf (Nat.le_trans (by decide) (Nat.not_lt.mp h))
      let wrapNonce := readFixed buf kCommonHeaderSize crypto_secretbox_NONCEBYTES
        (Nat.le_trans (by decide) (Nat.not_lt.mp h))
      let wrappedKey := readFixed buf (kCommonHeaderSize + crypto_secretbox_NONCEBYTES)
        (crypto_secretbox_KEYBYTES + crypto_secretbox_MACBYTES) (Nat.le_trans (by decide) (Nat.not_lt.mp h))
      let payloadNonce := readFixed buf (kHeaderSizeV2 - crypto_secretbox_NONCEBYTES)
        crypto_secretbox_NONCEBYTES (Nat.le_trans (by decide) (Nat.not_lt.mp h))
      return .version2 { header with wrapNonce, wrappedKey } payloadNonce
        ⟨buf.drop kHeaderSizeV2, by rw [List.length_drop]; omega⟩

theorem readCommonHeader_ok {buf : Bytes} {h : kCommonHeaderSize ≤ buf.length} {header : Header lib.sodium}
    (hr : readCommonHeader buf h = .ok header) : checkKdfParams header.opslimit header.memlimit = .ok () := by
  obtain ⟨_, hcheck, hr⟩ := Prog.except_bind_eq_ok.mp hr
  rw [← Except.ok.inj hr]
  exact hcheck

/-- The parameters of a file are checked before anything is derived from them. -/
theorem decodeStore_version2 {path buf : Bytes} {envelope : Envelope lib.sodium}
    {payloadNonce : lib.sodium.Nonce} {ciphertext : lib.sodium.Box}
    (h : decodeStore path buf = .ok (.version2 envelope payloadNonce ciphertext)) :
    checkKdfParams envelope.opslimit envelope.memlimit = .ok () := by
  unfold decodeStore at h
  split at h
  · simp at h
  simp only at h
  split_ifs at h
  · obtain ⟨_, -, h⟩ := Prog.except_bind_eq_ok.mp h
    simp [pure, Except.pure] at h
  · obtain ⟨header, hr, h⟩ := Prog.except_bind_eq_ok.mp h
    obtain ⟨rfl, -, -⟩ := StoreFile.version2.inj (Except.ok.inj h)
    exact readCommonHeader_ok hr

def storeFormat (lib : Libsodium) : Format lib.sodium where
  File := Bytes
  encode := encodeStore
  decode := decodeStore

theorem flatten_field {fields : List Bytes} (i : Nat) {x : Bytes} {offset : Nat}
    (hi : fields[i]? = some x) (ho : ((fields.take i).map List.length).sum = offset) :
    fields.flatten.drop offset = x ++ (fields.drop (i + 1)).flatten := by
  obtain ⟨hlt, rfl⟩ := List.getElem?_eq_some_iff.mp hi
  have hsplit : fields.flatten = (fields.take i).flatten ++ (fields.drop i).flatten := by
    rw [← List.flatten_append, List.take_append_drop]
  rw [hsplit, ← ho, ← List.length_flatten, List.drop_left, List.drop_eq_getElem_cons hlt, List.flatten_cons]

theorem readFixed_flatten {fields : List Bytes} {n : Nat} (x : Fixed n) (i : Nat) {offset : Nat}
    (hi : fields[i]? = some x.1) (ho : ((fields.take i).map List.length).sum = offset)
    (h : offset + n ≤ fields.flatten.length) : readFixed fields.flatten offset n h = x := by
  have hx : (fields.flatten.drop offset).take n = x.1 := by
    rw [flatten_field i hi ho, List.take_left' x.2]
  exact Subtype.ext hx

section

variable (envelope : Envelope lib.sodium) (payloadNonce : lib.sodium.Nonce) (ciphertext : lib.sodium.Box)

theorem storeFields_lengths : (storeFields envelope payloadNonce ciphertext).map List.length =
    [4, 1, crypto_pwhash_SALTBYTES, 8, 8, 8, crypto_secretbox_NONCEBYTES,
      crypto_secretbox_KEYBYTES + crypto_secretbox_MACBYTES, crypto_secretbox_NONCEBYTES,
      ciphertext.1.length] := by
  have hmagic : kMagic.length = 4 := rfl
  simp only [storeFields, List.map_cons, List.map_nil, length_putU64Le, envelope.salt.2,
    envelope.wrapNonce.2, envelope.wrappedKey.2, payloadNonce.2, hmagic, List.length_singleton]

theorem length_encodeStore :
    (encodeStore envelope payloadNonce ciphertext).length = kHeaderSizeV2 + ciphertext.1.length := by
  rw [encodeStore, List.length_flatten, storeFields_lengths]
  simp [kHeaderSizeV2, kCommonHeaderSize, kCreatedOffset, kMemlimitOffset, kOpslimitOffset,
    kSaltOffset, crypto_pwhash_SALTBYTES, crypto_secretbox_NONCEBYTES, crypto_secretbox_KEYBYTES,
    crypto_secretbox_MACBYTES]
  omega

theorem readFixed_encodeStore {n : Nat} (x : Fixed n) (i offset : Nat)
    (hi : (storeFields envelope payloadNonce ciphertext)[i]? = some x.1)
    (ho : (([4, 1, crypto_pwhash_SALTBYTES, 8, 8, 8, crypto_secretbox_NONCEBYTES,
      crypto_secretbox_KEYBYTES + crypto_secretbox_MACBYTES, crypto_secretbox_NONCEBYTES,
      ciphertext.1.length] : List Nat).take i).sum = offset)
    (h : offset + n ≤ (encodeStore envelope payloadNonce ciphertext).length) :
    readFixed (encodeStore envelope payloadNonce ciphertext) offset n h = x := by
  apply readFixed_flatten x i hi
  rw [List.map_take, storeFields_lengths, ho]

theorem readCommonHeader_encodeStore
    (h : kCommonHeaderSize ≤ (encodeStore envelope payloadNonce ciphertext).length)
    (hparams : checkKdfParams envelope.opslimit envelope.memlimit = .ok ()) :
    readCommonHeader (encodeStore envelope payloadNonce ciphertext) h = .ok envelope.toHeader := by
  have hread {n : Nat} (x : Fixed n) (i offset : Nat) (hle : offset + n ≤ kCommonHeaderSize) hi ho :=
    readFixed_encodeStore envelope payloadNonce ciphertext x i offset hi ho (Nat.le_trans hle h)
  have hsalt := hread envelope.salt 2 kSaltOffset (by decide) rfl rfl
  have hops := hread ⟨putU64Le envelope.opslimit, length_putU64Le _⟩ 3 kOpslimitOffset (by decide) rfl rfl
  have hmem := hread ⟨putU64Le envelope.memlimit, length_putU64Le _⟩ 4 kMemlimitOffset (by decide) rfl rfl
  have hnow := hread ⟨putU64Le envelope.keyCreatedAt, length_putU64Le _⟩ 5 kCreatedOffset (by decide) rfl rfl
  simp only [readCommonHeader, hsalt, hops, hmem, hnow, getU64Le_putU64Le, hparams]
  rfl

theorem drop_encodeStore : (encodeStore envelope payloadNonce ciphertext).drop kHeaderSizeV2 = ciphertext.1 := by
  have hi : (storeFields envelope payloadNonce ciphertext)[9]? = some ciphertext.1 := rfl
  have ho : (((storeFields envelope payloadNonce ciphertext).take 9).map List.length).sum = kHeaderSizeV2 := by
    rw [List.map_take, storeFields_lengths]
    rfl
  rw [encodeStore, flatten_field 9 hi ho]
  simp [storeFields]

theorem decodeStore_encodeStore (path : Bytes)
    (hparams : checkKdfParams envelope.opslimit envelope.memlimit = .ok ()) :
    decodeStore path (encodeStore envelope payloadNonce ciphertext) =
      .ok (.version2 envelope payloadNonce ciphertext) := by
  have hlen := length_encodeStore envelope payloadNonce ciphertext
  have hbox := ciphertext.2
  have hmagic : (encodeStore envelope payloadNonce ciphertext).take 4 = kMagic := rfl
  have hversion : (encodeStore envelope payloadNonce ciphertext).getD 4 0 = kVersion2 := rfl
  have hlong : ¬ (encodeStore envelope payloadNonce ciphertext).length <
      kHeaderSizeV2 + crypto_secretbox_MACBYTES := by omega
  have hshort : ¬ (encodeStore envelope payloadNonce ciphertext).length < 4 + 1 := by
    have : 4 + 1 ≤ kHeaderSizeV2 := by decide
    omega
  have hv : ¬ kVersion2 = kVersion1 := by decide
  have hread {n : Nat} (x : Fixed n) (i offset : Nat) (hle : offset + n ≤ kHeaderSizeV2) hi ho :=
    readFixed_encodeStore envelope payloadNonce ciphertext x i offset hi ho (by omega)
  have hwrapNonce := hread envelope.wrapNonce 6 kCommonHeaderSize (by decide) rfl rfl
  have hwrapped := hread envelope.wrappedKey 7 (kCommonHeaderSize + crypto_secretbox_NONCEBYTES)
    (by decide) rfl rfl
  have hnonce := hread payloadNonce 8 (kHeaderSizeV2 - crypto_secretbox_NONCEBYTES) (by decide) rfl rfl
  unfold decodeStore
  rw [if_neg (by simp [hshort, hmagic])]
  simp only [hversion, hv, if_false, ne_eq, not_true_eq_false, hlong, dif_neg, not_false_eq_true]
  rw [readCommonHeader_encodeStore _ _ _ _ hparams]
  simp only [bind, Except.bind, hwrapNonce, hwrapped, hnonce, drop_encodeStore]
  rfl

theorem storeFormat_decodeUndoesEncode (lib : Libsodium) : (storeFormat lib).DecodeUndoesEncode :=
  fun path envelope nonce box hparams => decodeStore_encodeStore envelope nonce box path hparams

end

end Secretov
