import Mathlib.Data.List.Forall2
import Accelerators.Crypt.RoundTrip

namespace accelerators.crypt

inductive Action where
  | ENCRYPT
  | DECRYPT
  deriving DecidableEq

/-- How the program ends before it has a result. -/
inductive Stop where
  | undefined
  | exit (stderr : String)

/-- The loop over the chunks, with its result as a new list. `readInputData` has made a
    list of the same length for it. -/
def encryptChunks (key : List Nat) : List Chunk → Except Stop (List Chunk)
  | [] => pure []
  | plain :: rest => do
    let crypt ← match doCrypt key plain with
      | some crypt => pure crypt
      | none => throw .undefined
    let crypts ← encryptChunks key rest
    pure (crypt :: crypts)

def encrypt_decrypt (plainList : List Chunk) (key : List Nat) (plainLength : Int32) : Except Stop (List Chunk) :=
  if plainLength % Int32.ofNat CHUNK_SIZE ≠ 0 then
    throw (.exit ("Invalid encryption: length of plain must be an even multiple of " ++ toString CHUNK_SIZE ++
      " but is " ++ toString plainLength ++ "\n"))
  else encryptChunks key plainList

def readInputData : List Int8 → Except Stop (List Chunk)
  | [] => pure []
  | a0 :: a1 :: a2 :: a3 :: a4 :: a5 :: a6 :: a7 :: rest => do
    let textData ← readInputData rest
    pure (#v[a0, a1, a2, a3, a4, a5, a6, a7] :: textData)
  | _ => throw (.exit "Failed reading text from input file\n")

/-- The bytes of the key file as `int16_t`. -/
def readUserkey (bytes : List Int8) : Vector Int16 8 :=
  Vector.ofFn fun i => (word (bytes.getD (2 * i) 0) (bytes.getD (2 * i + 1) 0)).toInt16

/-- What can be read, and what can be written. Every file has one name. -/
structure FileSystem where
  contents : String → Option (List Int8)
  writable : String → Bool

/-- The contents of a file are replaced. -/
def FileSystem.write (fs : FileSystem) (name : String) (bytes : List Int8) : FileSystem :=
  { fs with contents := Function.update fs.contents name (some bytes) }

def generateKey (a : Action) (userkey : Vector Int16 8) : Option (List Nat) :=
  match a with
  | .ENCRYPT => some (generateEncryptKey userkey)
  | .DECRYPT => generateDecryptKey userkey

@[simp]
theorem FileSystem.write_contents_self (fs : FileSystem) (name : String) (bytes : List Int8) :
    (fs.write name bytes).contents name = some bytes := Function.update_self _ _ _

theorem FileSystem.write_contents_of_ne (fs : FileSystem) {name name' : String} (bytes : List Int8)
    (h : name' ≠ name) : (fs.write name bytes).contents name' = fs.contents name' := Function.update_of_ne h _ _

/-- What `main` does with the three open files, as far as the bytes to be written. -/
def crypted (a : Action) (keyBytes text : List Int8) : Except Stop (List Int8) := do
  if keyBytes.length ≠ 2 * USERKEY_LENGTH then
    throw (.exit ("Invalid user key file length " ++ toString keyBytes.length ++ ", must be " ++
      toString (2 * USERKEY_LENGTH) ++ "\n"))
  let key ← match generateKey a (readUserkey keyBytes) with
    | some key => pure key
    | none => throw .undefined
  if text.length % CHUNK_SIZE ≠ 0 then
    throw (.exit ("Invalid input file length " ++ toString text.length ++ ", must be evenly divisible by " ++
      toString CHUNK_SIZE ++ "\n"))
  let textList ← readInputData text
  let cryptList ← encrypt_decrypt textList key (Int32.ofNat text.length)
  pure (cryptList.flatMap Vector.toList)

/-- What is left when the program has returned. -/
structure Outcome where
  status : Int32
  stdout : String
  stderr : String
  fs : FileSystem

/-- `strncmp(s1, s2, n) == 0`. -/
def strncmpEq (s1 s2 : String) (n : Nat) : Bool := s1.toList.take n == s2.toList.take n

def action (arg : String) : Option Action :=
  if strncmpEq arg "encrypt" 7 then some .ENCRYPT
  else if strncmpEq arg "decrypt" 7 then some .DECRYPT
  else none

/-- Opening the file for the output empties it, before the others are read. Without any
    argument there is no `argv[0]`, and `(null)` for it is an extension of the C library. -/
def main (argv : List String) (fs : FileSystem) : Option Outcome :=
  match argv with
  | [_, arg, input, output, keyfile] =>
    match action arg with
    | none =>
      some ⟨1, "", "The action specified ('" ++ arg ++ "') is not valid. Must be " ++
        "either 'encrypt' or 'decrypt'\n", fs⟩
    | some a =>
      if (fs.contents input).isNone then some ⟨1, "", "Unable to open " ++ input ++ " for reading\n", fs⟩
      else if !fs.writable output then some ⟨1, "", "Unable to open " ++ output ++ " for writing\n", fs⟩
      else
        let fs := fs.write output []
        match fs.contents keyfile with
        | none => some ⟨1, "", "Unable to open key file " ++ keyfile ++ " for reading\n", fs⟩
        | some keyBytes =>
          match crypted a keyBytes ((fs.contents input).getD []) with
          | .ok bytes => some ⟨0, "", "", fs.write output bytes⟩
          | .error (.exit stderr) => some ⟨1, "", stderr, fs⟩
          | .error .undefined => none
  | _ =>
    some ⟨1, "usage: " ++ argv.headD "(null)" ++ " <encrypt|decrypt> <file.in> <file.out> <key.file>\n", "", fs⟩

variable {a : Action} {key : List Nat} {keyBytes text : List Int8} {chunks crypts : List Chunk}

/-- The bytes of the chunks, one after the other. -/
def bytes (chunks : List Chunk) : List Int8 := chunks.flatMap Vector.toList

theorem length_bytes (chunks : List Chunk) : (bytes chunks).length = 8 * chunks.length := by
  induction chunks with
  | nil => rfl
  | cons chunk chunks ih =>
    rw [bytes, List.flatMap_cons, List.length_append, Vector.length_toList, ← bytes, ih, List.length_cons]
    omega

theorem length_bytes_mod (chunks : List Chunk) : (bytes chunks).length % 8 = 0 := by
  rw [length_bytes, Nat.mul_mod_right]

theorem readInputData_bytes (chunks : List Chunk) : readInputData (bytes chunks) = .ok chunks := by
  induction chunks with
  | nil => rfl
  | cons chunk chunks ih =>
    obtain ⟨a, rfl⟩ : ∃ a, store a = chunk := ⟨load chunk, store_load chunk⟩
    have hbytes : bytes (store a :: chunks) = low a.x1 :: high a.x1 :: low a.x2 :: high a.x2 :: low a.x3 :: high a.x3 ::
      low a.x4 :: high a.x4 :: bytes chunks := rfl
    rw [hbytes, readInputData, ih]
    rfl

theorem plainLength_mod {n : Nat} (h : n % 8 = 0) : Int32.ofNat n % Int32.ofNat CHUNK_SIZE = 0 := by
  have hbmod : (n : Int).bmod (2 ^ 32) % 8 = 0 := by
    rw [Int.bmod_def]
    split <;> omega
  rw [← Int32.toInt_inj, Int32.toInt_mod, Int32.toInt_ofNat']
  exact Int.tmod_eq_zero_of_dvd (Int.dvd_of_emod_eq_zero hbmod)

theorem encryptChunks_spec (hfits : Fits CHUNK_SIZE key) (chunks : List Chunk) :
    ∃ crypts, encryptChunks key chunks = .ok crypts ∧
      List.Forall₂ (fun plain crypt => doCrypt key plain = some crypt) chunks crypts := by
  induction chunks with
  | nil => exact ⟨[], rfl, .nil⟩
  | cons plain chunks ih =>
    obtain ⟨crypts, hcrypts, hall⟩ := ih
    obtain ⟨b, hb⟩ := hfits.exists_rounds (load plain)
    have hplain : doCrypt key plain = some (store b) := by rw [doCrypt, hb, Option.map_some]
    refine ⟨store b :: crypts, ?_, .cons hplain hall⟩
    rw [encryptChunks, hplain, hcrypts]
    rfl

theorem generateKey_spec (a : Action) (userkey : Vector Int16 8) :
    ∃ key, generateKey a userkey = some key ∧ Fits CHUNK_SIZE key := by
  cases a with
  | ENCRYPT => exact ⟨_, rfl, generateEncryptKey_fits userkey⟩
  | DECRYPT =>
    obtain ⟨key, hkey, hfits, -⟩ := generateDecryptKey_spec userkey
    exact ⟨key, hkey, hfits⟩

/-- With a key file of the right length, the chunks are encrypted one by one. -/
theorem crypted_bytes (hkeyBytes : keyBytes.length = 16) (a : Action) (chunks : List Chunk) :
    ∃ key crypts, generateKey a (readUserkey keyBytes) = some key ∧
      crypted a keyBytes (bytes chunks) = .ok (bytes crypts) ∧
      List.Forall₂ (fun plain crypt => doCrypt key plain = some crypt) chunks crypts := by
  obtain ⟨key, hkey, hfits⟩ := generateKey_spec a (readUserkey keyBytes)
  obtain ⟨crypts, hcrypts, hall⟩ := encryptChunks_spec hfits chunks
  have hlength : (bytes chunks).length % CHUNK_SIZE = 0 := length_bytes_mod chunks
  refine ⟨key, crypts, hkey, ?_, hall⟩
  have hdecrypt : encrypt_decrypt chunks key (Int32.ofNat (bytes chunks).length) = .ok crypts := by
    rw [encrypt_decrypt, if_neg (not_not.mpr (plainLength_mod hlength)), hcrypts]
  have hfile : ¬ keyBytes.length ≠ 2 * USERKEY_LENGTH := not_not.mpr hkeyBytes
  rw [crypted, if_neg hfile, hkey]
  change (if (bytes chunks).length % CHUNK_SIZE ≠ 0 then _ else _) = _
  rw [if_neg (not_not.mpr hlength), readInputData_bytes]
  change (encrypt_decrypt chunks key (Int32.ofNat (bytes chunks).length)).map bytes = _
  rw [hdecrypt]
  rfl

/-- The three files can be opened, and with the output emptied the others have the right
    lengths. -/
structure Ready (fs : FileSystem) (input output keyfile : String) (keyBytes text : List Int8) : Prop where
  input_open : fs.contents input ≠ none
  output_open : fs.writable output = true
  keyfile_read : (fs.write output []).contents keyfile = some keyBytes
  key_length : keyBytes.length = 16
  input_read : (fs.write output []).contents input = some text
  text_length : text.length % 8 = 0

variable {fs : FileSystem} {program arg input output keyfile : String}

theorem main_ready (h : Ready fs input output keyfile keyBytes text) (harg : action arg = some a) {out : List Int8}
    (hout : crypted a keyBytes text = .ok out) :
    main [program, arg, input, output, keyfile] fs = some ⟨0, "", "", (fs.write output []).write output out⟩ := by
  have hinput : (fs.contents input).isNone = false := by
    rw [Option.isNone_eq_false_iff, Option.isSome_iff_ne_none]
    exact h.input_open
  simp only [main, harg, hinput, h.output_open, h.keyfile_read, h.input_read, Option.getD_some, hout]
  rfl

theorem decrypted_eq {key' : List Nat} {plains : List Chunk}
    (hall : List.Forall₂ (fun plain crypt => doCrypt key plain = some crypt) chunks crypts)
    (hall' : List.Forall₂ (fun crypt plain => doCrypt key' crypt = some plain) crypts plains)
    (hback : ∀ plain ∈ chunks, (doCrypt key plain).bind (doCrypt key') = some plain) : plains = chunks := by
  induction hall generalizing plains with
  | nil =>
    cases hall'
    rfl
  | cons hcrypt _ ih =>
    cases hall' with
    | cons hplain hrest =>
      rw [List.forall_mem_cons, hcrypt, Option.bind_some, hplain, Option.some.injEq] at hback
      rw [hback.1, ih hrest hback.2]

section
variable (hinput : fs.contents input = some text) (hkeyfile : fs.contents keyfile = some keyBytes)
  (hlength : keyBytes.length = 16) (htext : text.length % 8 = 0) (houtput : fs.writable output = true)
  (houtput_input : output ≠ input) (houtput_keyfile : output ≠ keyfile)
include hinput hkeyfile hlength htext houtput houtput_input houtput_keyfile

theorem ready_of_ne : Ready fs input output keyfile keyBytes text where
  input_open := by simp [hinput]
  output_open := houtput
  keyfile_read := by rw [fs.write_contents_of_ne _ houtput_keyfile.symm, hkeyfile]
  key_length := hlength
  input_read := by rw [fs.write_contents_of_ne _ houtput_input.symm, hinput]
  text_length := htext

end

/-- What is encrypted and then decrypted with the same key file is the text again, unless
    something was lost in one of its chunks. -/
theorem main_decrypts (fs : FileSystem) (program input crypt output keyfile : String) (chunks : List Chunk)
    (keyBytes : List Int8) (hinput : fs.contents input = some (bytes chunks))
    (hkeyfile : fs.contents keyfile = some keyBytes) (hlength : keyBytes.length = 16)
    (hcrypt : fs.writable crypt = true) (houtput : fs.writable output = true)
    (hcrypt_input : crypt ≠ input) (hcrypt_keyfile : crypt ≠ keyfile) (houtput_crypt : output ≠ crypt)
    (houtput_keyfile : output ≠ keyfile)
    (hkept : ∀ plain ∈ chunks, Recoverable CHUNK_SIZE (load plain) (generateEncryptKey (readUserkey keyBytes))) :
    ∃ fs' fs'', main [program, "encrypt", input, crypt, keyfile] fs = some ⟨0, "", "", fs'⟩ ∧
      main [program, "decrypt", crypt, output, keyfile] fs' = some ⟨0, "", "", fs''⟩ ∧
      fs''.contents output = some (bytes chunks) ∧
      ∀ name, name ≠ crypt → name ≠ output → fs''.contents name = fs.contents name := by
  obtain ⟨key, crypts, hkey, hcrypted, hall⟩ := crypted_bytes hlength .ENCRYPT chunks
  obtain rfl : generateEncryptKey (readUserkey keyBytes) = key := Option.some.inj hkey
  obtain ⟨key', plains, hkey', hdecrypted, hall'⟩ := crypted_bytes hlength .DECRYPT crypts
  have hplains : plains = chunks := by
    obtain ⟨key'', hkey'', -, hback⟩ := doCrypt_doCrypt (readUserkey keyBytes)
    obtain rfl : key'' = key' := Option.some.inj (hkey''.symm.trans hkey')
    exact decrypted_eq hall hall' fun plain hplain => hback plain (hkept plain hplain)
  have hready := ready_of_ne hinput hkeyfile hlength (length_bytes_mod chunks) hcrypt hcrypt_input hcrypt_keyfile
  have hkeyfile' : ((fs.write crypt []).write crypt (bytes crypts)).contents keyfile = some keyBytes := by
    simp only [FileSystem.write_contents_of_ne _ _ hcrypt_keyfile.symm, hkeyfile]
  have hready' := ready_of_ne (FileSystem.write_contents_self _ crypt (bytes crypts)) hkeyfile' hlength
    (length_bytes_mod crypts) houtput houtput_crypt houtput_keyfile
  refine ⟨_, _, main_ready hready rfl hcrypted, main_ready hready' rfl hdecrypted, ?_, ?_⟩
  · rw [FileSystem.write_contents_self, hplains]
  · intro name hcrypt hname
    simp only [FileSystem.write_contents_of_ne _ _ hcrypt, FileSystem.write_contents_of_ne _ _ hname]

/-- A text of one chunk and a key file. -/
def sampleFiles : FileSystem where
  contents name :=
    if name = "text" then some (bytes [#v[72, 101, 108, 108, 111, 33, 33, 10]])
    else if name = "key" then some (List.replicate 16 1)
    else none
  writable _ := true

theorem main_decrypts_sample : ∃ fs' fs'',
    main ["crypt", "encrypt", "text", "crypted", "key"] sampleFiles = some ⟨0, "", "", fs'⟩ ∧
    main ["crypt", "decrypt", "crypted", "text", "key"] fs' = some ⟨0, "", "", fs''⟩ ∧
    fs''.contents "text" = some (bytes [#v[72, 101, 108, 108, 111, 33, 33, 10]]) ∧
    ∀ name, name ≠ "crypted" → name ≠ "text" → fs''.contents name = sampleFiles.contents name :=
  main_decrypts sampleFiles "crypt" "text" "crypted" "text" "key" [#v[72, 101, 108, 108, 111, 33, 33, 10]]
    (List.replicate 16 1) rfl rfl rfl rfl rfl (by decide) (by decide) (by decide) (by decide)
    (List.forall_mem_singleton.mpr (by decide +kernel))

/-- The arguments and files with which the program returns zero. -/
def Accepted (argv : List String) (fs : FileSystem) : Prop :=
  ∃ program arg input output keyfile keyBytes text, argv = [program, arg, input, output, keyfile] ∧
    action arg ≠ none ∧ Ready fs input output keyfile keyBytes text

theorem Accepted.ready (h : Accepted [program, arg, input, output, keyfile] fs) :
    action arg ≠ none ∧ ∃ keyBytes text, Ready fs input output keyfile keyBytes text := by
  obtain ⟨program', arg', input', output', keyfile', keyBytes, text, hargv, harg, hready⟩ := h
  simp only [List.cons.injEq, and_true] at hargv
  obtain ⟨rfl, rfl, rfl, rfl, rfl⟩ := hargv
  exact ⟨harg, keyBytes, text, hready⟩

end accelerators.crypt
