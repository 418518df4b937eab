import Cryo.Format

/-!
# Compression engines and ciphers

The third-party crates are a parameter (`Crates`): the zstd, xz and DEFLATE codecs, the two AEADs, Argon2, BLAKE3 and
the MessagePack encoding of the header and the index. What the program relies on is `Crates.Lawful`: what was encoded
decodes to the same data, and an AEAD adds a 16-byte tag. Over them stand the engines of `engine.rs` with their level
check and their decompression cap, and the key derivation and block sealing of `codec.rs`.

* `decompress_compress`: an engine undoes its compression under any cap that the data respects.
* `decryptBlock_encryptBlock`: a sealed block opens under its own number and archive id.
-/

namespace Cryo

open Posix Bytes

/-- Which step of a streaming encoder failed. -/
inductive EncodeFail where
  | write
  | finish
  deriving DecidableEq

/-- The crates the program calls. A decoder returns what it decoded before the end of the data or an error, and whether
it ended well. -/
structure Crates where
  zstdLevels : Int × Int
  zstdReady : Bool
  zstdCompress : Int → Bytes → Option Bytes
  zstdDecompress : Bytes → Nat → Option Bytes
  xzEncode : Nat → Bytes → Except EncodeFail Bytes
  xzDecode : Bytes → Bytes × Bool
  deflateEncode : Nat → Bytes → Except EncodeFail Bytes
  deflateDecode : Bytes → Bytes × Bool
  aesEncrypt : Key → Nonce → Bytes → Bytes → Option Bytes
  aesDecrypt : Key → Nonce → Bytes → Bytes → Option Bytes
  chachaEncrypt : Key → Nonce → Bytes → Bytes → Option Bytes
  chachaDecrypt : Key → Nonce → Bytes → Bytes → Option Bytes
  argonParams : Nat × Nat × Nat → Bool
  argon2 : Nat × Nat × Nat → Vector UInt8 32 → String → Option Key
  blake3 : Bytes → Digest
  headerToVec : Header → Option Bytes
  headerFromSlice : Bytes → Option Header
  indexToVec : Index → Option Bytes
  indexFromSlice : Bytes → Option Index

/-- What the program relies on: encoding and decoding round-trip, and a sealed message is 16 bytes longer. -/
structure Crates.Lawful (K : Crates) : Prop where
  zstd : ∀ {l d c}, K.zstdCompress l d = some c → ∀ {n}, d.length ≤ n → K.zstdDecompress c n = some d
  xz : ∀ {l d c}, K.xzEncode l d = .ok c → K.xzDecode c = (d, true)
  deflate : ∀ {l d c}, K.deflateEncode l d = .ok c → K.deflateDecode c = (d, true)
  aes : ∀ {k n a m c}, K.aesEncrypt k n a m = some c → K.aesDecrypt k n a c = some m ∧ c.length = m.length + 16
  chacha : ∀ {k n a m c}, K.chachaEncrypt k n a m = some c →
    K.chachaDecrypt k n a c = some m ∧ c.length = m.length + 16
  header : ∀ {h b}, K.headerToVec h = some b → K.headerFromSlice b = some h
  index : ∀ {i b}, K.indexToVec i = some b → K.indexFromSlice b = some i

/-- Crates that store: codecs that change nothing, tags of zeros, and a header or an index encoded by its place in a
table. They meet the assumptions. -/
def Crates.tabled (headers : List Header) (indexes : List Index) : Crates where
  zstdLevels := (-7, 22)
  zstdReady := true
  zstdCompress _ d := some d
  zstdDecompress c _ := some c
  xzEncode _ d := .ok d
  xzDecode c := (c, true)
  deflateEncode _ d := .ok d
  deflateDecode c := (c, true)
  aesEncrypt _ _ _ m := some (m ++ List.replicate 16 0)
  aesDecrypt _ _ _ c := some (c.take (c.length - 16))
  chachaEncrypt _ _ _ m := some (m ++ List.replicate 16 0)
  chachaDecrypt _ _ _ c := some (c.take (c.length - 16))
  argonParams _ := true
  argon2 _ salt _ := some salt
  blake3 d := Vector.ofFn fun i => d.getD i 0
  headerToVec h := (headers.findIdx? (· = h)).map fun i => List.replicate i 0
  headerFromSlice b := headers[b.length]?
  indexToVec x := (indexes.findIdx? (· = x)).map fun i => List.replicate i 0
  indexFromSlice b := indexes[b.length]?

/-- Looking an entry up by its place. -/
theorem getElem?_of_findIdx? {α : Type} [DecidableEq α] {l : List α} {a : α} {b : Bytes}
    (h : (l.findIdx? (· = a)).map (fun i => List.replicate i 0) = some b) : l[b.length]? = some a := by
  obtain ⟨i, hi, rfl⟩ := Option.map_eq_some_iff.1 h
  obtain ⟨hlt, ha, _⟩ := List.findIdx?_eq_some_iff_getElem.1 hi
  rw [List.length_replicate, List.getElem?_eq_getElem hlt]
  simpa using ha

theorem Crates.tabled_lawful (headers : List Header) (indexes : List Index) : (tabled headers indexes).Lawful where
  zstd h _ _ := by cases h; rfl
  xz h := by cases h; rfl
  deflate h := by cases h; rfl
  aes h := by cases h; simp [tabled]
  chacha h := by cases h; simp [tabled]
  header h := getElem?_of_findIdx? h
  index h := getElem?_of_findIdx? h

/-- Nothing is assumed of the hash. -/
theorem Crates.Lawful.withHash {K : Crates} (h : K.Lawful) (hash : Bytes → Digest) : { K with blake3 := hash }.Lawful :=
  ⟨h.zstd, h.xz, h.deflate, h.aes, h.chacha, h.header, h.index⟩

variable (K : Crates)

/-! ## Engines -/

namespace Compressor

def giveRange : Compressor → Int × Int
  | .zstd => K.zstdLevels
  | .deflate => (0, 9)
  | .none => (0, 0)
  | .xz => (0, 9)

def toString : Compressor → String
  | .zstd => "Zstd"
  | .none => "None"
  | .deflate => "Deflate"
  | .xz => "Xz"

def verifyLevel (engine : Compressor) (level : Int) : Bool :=
  match engine with
  | .deflate | .xz => 0 ≤ level ∧ level ≤ 9
  | .zstd => K.zstdLevels.1 ≤ level ∧ level ≤ K.zstdLevels.2
  | .none => true

end Compressor

/-- An engine, which only exists for a level its algorithm has. -/
structure CompressingEngine where
  engine : Compressor
  level : Int
  levelOk : engine.verifyLevel K level = true

structure DecompressingEngine where
  engine : Compressor

variable {K}

def CompressingEngine.new (engine : Compressor) (level : Int) : Result (CompressingEngine K) :=
  if h : engine.verifyLevel K level = true then
    if engine = .zstd ∧ K.zstdReady = false then .error (.initializationError "Failed to initialize zstd engine")
    else .ok ⟨engine, level, h⟩
  else .error (.invalidCompressionLevel engine.toString (engine.giveRange K).1 (engine.giveRange K).2)

/-- The errors of a streaming encoder. -/
def encoded : Except EncodeFail Bytes → Result Bytes
  | .ok c => .ok c
  | .error .write => .error .writeError
  | .error .finish => .error .compressionError

def CompressingEngine.compress (e : CompressingEngine K) (data : Bytes) : Result Bytes :=
  match e.engine with
  | .zstd => (K.zstdCompress e.level data).elim (.error .compressionError) .ok
  | .deflate => encoded (K.deflateEncode e.level.toNat data)
  | .xz => encoded (K.xzEncode e.level.toNat data)
  | .none => .ok data

variable (K) in
def DecompressingEngine.new (engine : Compressor) : Result DecompressingEngine :=
  if engine = .zstd ∧ K.zstdReady = false then
    .error (.initializationError "Failed to initialize zstd decompression engine")
  else .ok ⟨engine⟩

/-- Reading at most `maxSize + 1` bytes from a decoder; an error past that point is not seen. -/
def takeLimited (decoded : Bytes × Bool) (maxSize : Nat) : Result Bytes :=
  let out := decoded.1.take (maxSize + 1)
  if decoded.1.length ≤ maxSize ∧ decoded.2 = false then .error .decompressionError
  else if out.length > maxSize then .error .possibleZipBomb
  else .ok out

variable (K) in
def DecompressingEngine.decompress (e : DecompressingEngine) (data : Bytes) (maxSize : Nat) : Result Bytes :=
  match e.engine with
  | .zstd => (K.zstdDecompress data maxSize).elim (.error .decompressionError) .ok
  | .xz => takeLimited (K.xzDecode data) maxSize
  | .deflate => takeLimited (K.deflateDecode data) maxSize
  | .none => .ok data

theorem takeLimited_ok {d : Bytes} {n : Nat} (h : d.length ≤ n) : takeLimited (d, true) n = .ok d := by
  unfold takeLimited
  have : d.take (n + 1) = d := List.take_of_length_le (by omega)
  simp [this, Nat.not_lt.2 h]

theorem encoded_ok {r : Except EncodeFail Bytes} {c : Bytes} (h : encoded r = .ok c) : r = .ok c := by
  unfold encoded at h; split at h <;> simp_all

theorem elim_ok {o : Option Bytes} {e : CryoErrors} {c : Bytes} (h : o.elim (.error e) .ok = (.ok c : Result Bytes)) :
    o = some c := by
  cases o with
  | none => cases h
  | some d => cases h; rfl

/-- An engine undoes its compression. -/
theorem decompress_compress (hK : K.Lawful) {e : CompressingEngine K} {d c : Bytes} (h : e.compress d = .ok c) {n : Nat}
    (hn : d.length ≤ n) : DecompressingEngine.decompress K ⟨e.engine⟩ c n = .ok d := by
  obtain ⟨engine, level, hl⟩ := e
  cases engine with
  | zstd => simp [DecompressingEngine.decompress, hK.zstd (elim_ok h) hn]
  | xz => simp only [DecompressingEngine.decompress, hK.xz (encoded_ok h), takeLimited_ok hn]
  | deflate => simp only [DecompressingEngine.decompress, hK.deflate (encoded_ok h), takeLimited_ok hn]
  | none => cases h; rfl

/-! ## Ciphers -/

inductive Cipher where
  | none
  | aes (key : Key)
  | chacha (key : Key)
  deriving DecidableEq

/-- What the user types at the password prompts; none when a prompt cannot be read. -/
structure Prompts where
  first : Option String
  second : Option String

def promptForPassword : Option String → Result String
  | some p => .ok p
  | none => .error (.cryptographicError "Failed to read password")

/-- The two prompts, the second only to confirm. -/
def readPassword (prompts : Prompts) (confirm : Bool) : Result String := do
  let first ← promptForPassword prompts.first
  if confirm then
    let repeated ← promptForPassword prompts.second
    if first ≠ repeated then .error (.cryptographicError "Passwords don't match") else .ok first
  else .ok first

variable (K) in
def Cipher.new (prompts : Prompts) (h : Header) (confirm : Bool) : Result Cipher :=
  if h.encryption ≠ .none then
    if K.argonParams h.argonParams then do
      let password ← readPassword prompts confirm
      match K.argon2 h.argonParams h.argonSalt password with
      | .some key => .ok (if h.encryption = .aes then Cipher.aes key else Cipher.chacha key)
      | .none => .error (.cryptographicError "Argon2 failure")
    else .error (.cryptographicError "Failed to initialize argon2 params")
  else .ok Cipher.none

/-- The header says which cipher it is. -/
theorem Cipher.new_kind {prompts : Prompts} {h : Header} {confirm : Bool} {cipher : Cipher}
    (hkey : Cipher.new K prompts h confirm = .ok cipher) : match h.encryption with
      | .none => cipher = .none
      | .aes => ∃ k, cipher = .aes k
      | .chaCha => ∃ k, cipher = .chacha k := by
  unfold Cipher.new at hkey
  cases he : h.encryption with
  | none =>
    rw [he, if_neg (by simp)] at hkey
    exact (Except.ok.inj hkey).symm
  | aes | chaCha =>
    rw [he, if_pos (by simp)] at hkey
    split at hkey
    · obtain ⟨password, _, hkey⟩ := Except.bind_eq_ok.1 hkey
      split at hkey
      · rename_i k _
        exact ⟨k, (Except.ok.inj hkey).symm⟩
      · cases hkey
    · cases hkey

/-- The associated data: block number and archive id. -/
def aad (blockNum : Nat) (archiveId : ArchiveId) : Bytes := leBytes 8 blockNum ++ archiveId.toList

/-- The block number an index is sealed under. -/
def u64Max : Nat := 2 ^ 64 - 1

/-- The nonce and the associated data a payload is sealed with. -/
def EncryptedData.seal (encd : EncryptedData) (blockNum : Nat) (archiveId : ArchiveId) : Nonce × Bytes :=
  match encd with
  | .block nonce => (nonce, aad blockNum archiveId)
  | .index nonce => (nonce, aad u64Max archiveId)

/-- A missing result of an AEAD as an error. -/
def sealed (o : Option Bytes) (message : String) : Result Bytes := o.elim (.error (.cryptographicError message)) .ok

variable (K) in
def encryptBlock (blockId : Nat) (payload : Bytes) (encd : EncryptedData) (archiveId : ArchiveId) (cipher : Cipher) :
    Result Bytes :=
  let (nonce, aad) := encd.seal blockId archiveId
  match cipher with
  | .aes k => sealed (K.aesEncrypt k nonce aad payload) "AES encryption failure"
  | .chacha k => sealed (K.chachaEncrypt k nonce aad payload) "CHACHA encrypt failure"
  | .none => .ok payload

variable (K) in
def decryptBlock (encd : EncryptedData) (c : Cipher) (h : Header) (payload : Bytes) (blockNum : Nat) : Result Bytes :=
  let (nonce, aad) := encd.seal blockNum h.archiveId
  match c with
  | .aes key => sealed (K.aesDecrypt key nonce aad payload) "AES decryption failure"
  | .chacha k => sealed (K.chachaDecrypt k nonce aad payload) "CHACHA decrypt failure"
  | .none => .ok payload

/-- The bytes a cipher adds to a message. -/
def Cipher.overhead : Cipher → Nat
  | .none => 0
  | _ => 16

theorem Cipher.overhead_le (c : Cipher) : c.overhead ≤ 16 := by cases c <;> simp [overhead]

@[simp] theorem decryptBlock_none (encd : EncryptedData) (h : Header) (payload : Bytes) (n : Nat) :
    decryptBlock K encd .none h payload n = .ok payload := rfl

theorem length_encryptBlock (hK : K.Lawful) {blockId : Nat} {m c : Bytes} {encd : EncryptedData} {a : ArchiveId}
    {cipher : Cipher} (h : encryptBlock K blockId m encd a cipher = .ok c) : c.length = m.length + cipher.overhead := by
  cases cipher with
  | none => cases h; rfl
  | aes k => exact (hK.aes (elim_ok h)).2
  | chacha k => exact (hK.chacha (elim_ok h)).2

/-- **Opening undoes sealing** under the same number, kind and archive id. -/
theorem decryptBlock_encryptBlock (hK : K.Lawful) {blockId : Nat} {m c : Bytes} {encd : EncryptedData} {h : Header}
    {cipher : Cipher} (hc : encryptBlock K blockId m encd h.archiveId cipher = .ok c) :
    decryptBlock K encd cipher h c blockId = .ok m := by
  cases cipher with
  | none => cases hc; rfl
  | aes k =>
    have hopen := (hK.aes (elim_ok hc)).1
    show sealed (K.aesDecrypt k _ _ c) _ = _
    rw [hopen]; rfl
  | chacha k =>
    have hopen := (hK.chacha (elim_ok hc)).1
    show sealed (K.chachaDecrypt k _ _ c) _ = _
    rw [hopen]; rfl

end Cryo
