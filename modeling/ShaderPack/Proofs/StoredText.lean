import ShaderPack.Proofs.Agenda
import ShaderPack.Proofs.ContainerReader
import ShaderPack.Proofs.Cuts
import Mathlib.Tactic.IntervalCases

/-!
# Stored code is text

Code is kept as bytes, and it is read as text later on, with a replacement character for what cannot
be read. This never happens to code that an assembly keeps. What is loaded is a text; expansion
makes a text of it; and flattening puts texts behind each other, with line breaks between them.

* `Utf8.IsText.exists_eq`: reading the bytes of a text gives that text, and no replacement
  character.
* `Assembly.Textual`: the blobs of an assembly and the flattened code of its fragments are texts.
  Taking in a declaration keeps this (`Textual.take`), so the code that is checked next is a text
  too (`Textual.isText_of_pendingCode?`).
* `Program.stored_code_is_text`: the statement about all programs, for any number of declarations.
-/

namespace ShaderPack

/-! ### Texts are read back -/

namespace Utf8

variable {found : List (Option Char)} {rest : Bytes} {n v : Nat}

/-- The first byte of a character of two bytes. -/
theorem lead_two (hlow : 2 ≤ n) (hhigh : n < 32) :
    lead (UInt8.ofNat (n + 0xC0)) = .opens ⟨n, 0, 0x80, 0xBF⟩ := by
  interval_cases n <;> rfl

/-- The first byte of a character of three bytes. -/
theorem lead_three (h : n < 16) : lead (UInt8.ofNat (n + 0xE0)) =
    .opens ⟨n, 1, if n = 0 then 0xA0 else 0x80, if n = 13 then 0x9F else 0xBF⟩ := by
  interval_cases n <;> rfl

/-- The first byte of a character of four bytes. -/
theorem lead_four (h : n ≤ 4) : lead (UInt8.ofNat (n + 0xF0)) =
    .opens ⟨n, 2, if n = 0 then 0x90 else 0x80, if n = 4 then 0x8F else 0xBF⟩ := by
  interval_cases n <;> rfl

/-- A byte that opens a character waits for the others. -/
theorem scanFrom_opens {b : UInt8} {p : Pending} (h : lead b = .opens p) :
    scanFrom none found (b :: rest) = scanFrom (some p) found rest := by
  simp only [scanFrom, scanByte, scanLead, h]

/-- A later byte within its bounds adds its six bits, and the last one ends the character. -/
theorem scanFrom_later {p : Pending} (hn : n < 64) (hlow : p.low.toNat ≤ n + 0x80)
    (hhigh : n + 0x80 ≤ p.high.toNat) : scanFrom (some p) found (UInt8.ofNat (n + 0x80) :: rest) =
      match p.more with
      | 0 => scanFrom none (some (Char.ofNat (p.bits * 64 + n)) :: found) rest
      | more + 1 => scanFrom (some ⟨p.bits * 64 + n, more, 0x80, 0xBF⟩) found rest := by
  have hbyte : (UInt8.ofNat (n + 0x80)).toNat = n + 0x80 :=
    UInt8.toNat_ofNat_of_lt' (by rw [UInt8.size]; omega)
  have hbounds : p.low ≤ UInt8.ofNat (n + 0x80) ∧ UInt8.ofNat (n + 0x80) ≤ p.high := by
    rw [UInt8.le_iff_toNat_le, UInt8.le_iff_toNat_le, hbyte]
    exact ⟨hlow, hhigh⟩
  have hbits : (n + 0x80) % 64 = n := by omega
  simp only [scanFrom, scanByte, if_pos hbounds, hbyte, hbits]
  cases p.more <;> rfl

/-- A character of one byte is read back. -/
theorem scanFrom_one (h : v < 0x80) :
    scanFrom none found (UInt8.ofNat v :: rest) =
      scanFrom none (some (Char.ofNat v) :: found) rest := by
  have hbyte : (UInt8.ofNat v).toNat = v := UInt8.toNat_ofNat_of_lt' (by rw [UInt8.size]; omega)
  have hlead : lead (UInt8.ofNat v) = .whole (Char.ofNat v) := by
    rw [lead, if_pos (by rw [UInt8.lt_iff_toNat_lt, hbyte]; exact h), hbyte]
  simp only [scanFrom, scanByte, scanLead, hlead]

/-- A character of two bytes is read back. -/
theorem scanFrom_two (hlow : 0x80 ≤ v) (hhigh : v < 0x800) :
    scanFrom none found (UInt8.ofNat (v / 64 % 32 + 0xC0) :: UInt8.ofNat (v % 64 + 0x80) :: rest) =
      scanFrom none (some (Char.ofNat v) :: found) rest := by
  have hbits : v / 64 % 32 * 64 + v % 64 = v := by omega
  rw [scanFrom_opens (lead_two (by omega) (by omega)),
    scanFrom_later (by omega) (Nat.le_add_left _ _) (by show _ ≤ 0xBF; omega)]
  simp only [hbits]

/-- Two later bytes without bounds of their own. -/
theorem scanFrom_last_two (bits : Nat) :
    scanFrom (some ⟨bits, 1, 0x80, 0xBF⟩) found
      (UInt8.ofNat (v / 64 % 64 + 0x80) :: UInt8.ofNat (v % 64 + 0x80) :: rest) =
    scanFrom none (some (Char.ofNat ((bits * 64 + v / 64 % 64) * 64 + v % 64)) :: found) rest := by
  rw [scanFrom_later (by omega) (Nat.le_add_left _ _) (by show _ ≤ 0xBF; omega)]
  exact scanFrom_later (by omega) (Nat.le_add_left _ _) (by show _ ≤ 0xBF; omega)

/-- The bounds on the second byte keep out over-long forms and surrogates, which are no
characters. -/
theorem scanFrom_three (hlow : 0x800 ≤ v) (hhigh : v < 0x10000) (hvalid : v < 0xD800 ∨ 0xDFFF < v) :
    scanFrom none found (UInt8.ofNat (v / 4096 % 16 + 0xE0) :: UInt8.ofNat (v / 64 % 64 + 0x80) ::
      UInt8.ofNat (v % 64 + 0x80) :: rest) = scanFrom none (some (Char.ofNat v) :: found) rest := by
  have hbits : (v / 4096 % 16 * 64 + v / 64 % 64) * 64 + v % 64 = v := by omega
  rw [scanFrom_opens (lead_three (by omega)), scanFrom_later (by omega)]
  · simp only
    rw [scanFrom_later (by omega) (Nat.le_add_left _ _) (by show _ ≤ 0xBF; omega)]
    simp only [hbits]
  · show (if v / 4096 % 16 = 0 then 0xA0 else 0x80 : UInt8).toNat ≤ _
    split
    · show 0xA0 ≤ _
      omega
    · exact Nat.le_add_left _ _
  · show _ ≤ (if v / 4096 % 16 = 13 then 0x9F else 0xBF : UInt8).toNat
    split
    · show _ ≤ 0x9F
      omega
    · show _ ≤ 0xBF
      omega

/-- The bounds on the second byte keep out over-long forms and numbers past the last character. -/
theorem scanFrom_four (hlow : 0x10000 ≤ v) (hhigh : v < 0x110000) :
    scanFrom none found
      (UInt8.ofNat (v / 262144 % 8 + 0xF0) :: UInt8.ofNat (v / 4096 % 64 + 0x80) ::
      UInt8.ofNat (v / 64 % 64 + 0x80) :: UInt8.ofNat (v % 64 + 0x80) :: rest) =
    scanFrom none (some (Char.ofNat v) :: found) rest := by
  have hbits : ((v / 262144 % 8 * 64 + v / 4096 % 64) * 64 + v / 64 % 64) * 64 + v % 64 = v := by
    omega
  rw [scanFrom_opens (lead_four (by omega)), scanFrom_later (by omega)]
  · simp only
    rw [scanFrom_last_two, hbits]
  · show (if v / 262144 % 8 = 0 then 0x90 else 0x80 : UInt8).toNat ≤ _
    split
    · show 0x90 ≤ _
      omega
    · exact Nat.le_add_left _ _
  · show _ ≤ (if v / 262144 % 8 = 4 then 0x8F else 0xBF : UInt8).toNat
    split
    · show _ ≤ 0x8F
      omega
    · show _ ≤ 0xBF
      omega

/-- The bytes of a character are read as that character. -/
theorem scanFrom_utf8EncodeChar (c : Char) (found : List (Option Char)) (rest : Bytes) :
    scanFrom none found (String.utf8EncodeChar c ++ rest) =
      scanFrom none (some c :: found) rest := by
  have hc : Char.ofNat c.val.toNat = c := Char.ofNat_toNat c
  have hvalid : c.val.toNat < 0xD800 ∨ 0xDFFF < c.val.toNat ∧ c.val.toNat < 0x110000 := c.valid
  unfold String.utf8EncodeChar
  generalize c.val.toNat = v at hc hvalid
  subst hc
  simp only
  -- one case for each length of a character, told by its number
  split
  · exact scanFrom_one (by omega)
  split
  · exact scanFrom_two (by omega) (by omega)
  split
  · exact scanFrom_three (by omega) (by omega) (by omega)
  · exact scanFrom_four (by omega) (by omega)

/-- The bytes of characters are read back one character after another. -/
theorem scanFrom_encodeChars (cs : List Char) (found : List (Option Char)) :
    scanFrom none found (encodeChars cs) = found.reverse ++ cs.map some := by
  induction cs generalizing found with
  | nil => exact (List.append_nil _).symm
  | cons c cs ih =>
      rw [encodeChars_cons, scanFrom_utf8EncodeChar, ih, List.reverse_cons, List.append_assoc]
      rfl

/-- **A text is read back.** Its bytes are valid, and reading them with replacements replaces
nothing. -/
theorem IsText.exists_eq {x : Bytes} (h : IsText x) :
    ∃ s, encode s = x ∧ decode? x = some s ∧ decodeLossy x = s := by
  obtain ⟨cs, rfl⟩ := h
  have hencode : encode (String.ofList cs) = encodeChars cs := by rw [encode, String.toList_ofList]
  refine ⟨String.ofList cs, hencode, ?_, ?_⟩
  · rw [← hencode, decode?_encode]
  · have hscan : scan (encodeChars cs) = cs.map some := scanFrom_encodeChars cs []
    rw [decodeLossy, hscan, List.map_map]
    exact congrArg String.ofList (List.map_id cs)

/-- Text passes the check of bytes. -/
theorem IsText.isValid {x : Bytes} (h : IsText x) : Utf8.isValid x = true := by
  obtain ⟨s, -, hdecode, -⟩ := h.exists_eq
  rw [Utf8.isValid, hdecode]
  rfl

/-- Reading text with replacements and writing it again changes nothing. -/
theorem IsText.encode_decodeLossy {x : Bytes} (h : IsText x) : encode (decodeLossy x) = x := by
  obtain ⟨s, hencode, -, hlossy⟩ := h.exists_eq
  rw [hlossy, hencode]

/-- Pieces of text put together are text. -/
theorem isText_flatMap {α : Type} {f : α → Bytes} {xs : List α} (h : ∀ x ∈ xs, IsText (f x)) :
    IsText (xs.flatMap f) := by
  induction xs with
  | nil => exact isText_nil
  | cons x xs ih =>
      rw [List.flatMap_cons]
      exact (h x List.mem_cons_self).append (ih fun y hy => h y (List.mem_cons_of_mem _ hy))

end Utf8

open Utf8 (IsText)

/-! ### Blobs -/

namespace BlobStore

variable {s s' : BlobStore} {blob : Bytes} {id : UInt32}

/-- A blob that is stored comes behind the others, which stay as they are. -/
theorem blobs_of_add? (hpool : s.InPool) (h : s.add? blob = some (s', id)) :
    s'.blobs = s.blobs ++ [blob] := by
  obtain ⟨-, -, hspans, -⟩ := add?_eq_some h
  have hold : ∀ span ∈ s.spans.toList, s'.slice span = s.slice span := fun span hspan =>
    slice_of_add? h (hpool span (Array.mem_toList_iff.mp hspan))
  rw [blobs, hspans, Array.toList_push, List.map_append, List.map_singleton, slice_added h,
    List.map_congr_left hold, blobs]

/-- What is found under an id is one of the blobs. -/
theorem mem_blobs_of_blob? {code : Bytes} (h : s.blob? id = some code) : code ∈ s.blobs := by
  obtain ⟨span, hspan, -, hslice⟩ := blob?_eq_some_iff.mp h
  exact List.mem_map.mpr ⟨span, Array.mem_toList_iff.mpr (Array.mem_of_getElem? hspan), hslice⟩

/-- Every span lies in the pool, and every blob is a text. -/
structure Textual (s : BlobStore) : Prop where
  inPool : s.InPool
  isText : ∀ code ∈ s.blobs, IsText code

theorem textual_empty : empty.Textual where
  inPool span hspan := by simp [empty] at hspan
  isText code hcode := by simp [empty, blobs] at hcode

/-- A store of texts stays one when text is added. -/
theorem Textual.add? (hs : s.Textual) (hblob : IsText blob) (h : s.add? blob = some (s', id)) :
    s'.Textual where
  inPool := hs.inPool.add? h
  isText := by
    rw [blobs_of_add? hs.inPool h, List.forall_mem_append]
    exact ⟨hs.isText, by simpa using hblob⟩

/-- Flattening puts texts behind each other. -/
theorem Textual.flatten (hs : s.Textual) (t : ModuleTable) (deps : List UInt32) {own : Bytes}
    (hown : IsText own) : IsText (t.flatten s deps own) := by
  refine (Utf8.isText_flatMap fun id _ => ?_).append hown
  unfold ModuleTable.contribution
  split
  · exact Utf8.isText_nil
  · next code hcode =>
    obtain ⟨m, -, hblob⟩ := Option.bind_eq_some_iff.mp hcode
    split
    · exact Utf8.isText_nil
    · exact (hs.isText code (mem_blobs_of_blob? hblob)).append (Utf8.isText_singleton (by decide))

end BlobStore

/-! ### Expansion -/

/-- If the values of names are texts, expansion makes a text of a text. -/
theorem Defines.isText_of_expandFrom {d : Defines} {passes : Nat} {text : Bytes} {x : Expansion}
    (hd : ∀ name value, d.value? name = some value → IsText value) (htext : IsText text)
    (h : d.expandFrom passes text = some x) : IsText x.text := by
  induction passes generalizing text with
  | zero =>
      cases h
      exact htext
  | succ passes ih =>
      rw [expandFrom] at h
      cases hpass : d.pass text with
      | overflow => simp [hpass] at h
      | settled =>
          simp only [hpass, Option.some.injEq] at h
          rw [← h]
          exact htext
      | changed next =>
          simp only [hpass] at h
          exact ih (d.isText_of_pass hd htext hpass) h

/-- The values of names are texts. -/
def Setting.Textual (s : Setting) : Prop :=
  ∀ name value, s.defines.value? name = some value → IsText value

/-- With texts for values, a text expands to a text. -/
theorem Setting.Textual.expand {s : Setting} {raw : String} {own : Expansion} (hs : s.Textual)
    (h : s.expand raw = .ok own) : IsText own.text := by
  unfold Setting.expand at h
  split at h
  · cases h
  · next source hload =>
    split at h
    · cases h
    · next x hexpand =>
      cases h
      exact Defines.isText_of_expandFrom hs (Source.isText_of_load hload) hexpand

/-! ### Declarations -/

namespace Assembly

variable {s : Setting} {a b : Assembly} {x : Declared} {name : String} {d : Declaration}
  {code : Bytes}

/-- All code that is kept is text. -/
structure Textual (a : Assembly) : Prop where
  blobs : a.container.blobs.Textual
  cached : ∀ name code, a.cache.find? name = some code → IsText code

/-- At the start everything is text, since there is nothing. -/
theorem textual_empty (es : List Event) : (empty.note es).Textual where
  blobs := BlobStore.textual_empty
  cached name code h := by cases h

namespace Textual

theorem setLog (h : a.Textual) (log : Array Event) : { a with log }.Textual := ⟨h.blobs, h.cached⟩

/-- A module with text for its code keeps everything text. -/
theorem enter {kind : Kind} {own : Bytes} {deps : List UInt32} {m : Module} {blobs : BlobStore}
    (h : a.Textual) (hown : IsText own)
    (hm : Enters a.table a.container kind name own deps m blobs) :
    (a.enter m blobs).Textual :=
  ⟨h.blobs.add? hown hm.added, h.cached⟩

/-- So does text that is kept for a fragment. -/
theorem remember (h : a.Textual) (hcode : IsText code) : (a.remember name code).Textual :=
  ⟨h.blobs, forall_cached_remember h.cached hcode⟩

/-- So does a handle for text. -/
theorem issue {module? : Option UInt32} {source : CodeSource} {blobs : BlobStore} (h : a.Textual)
    (hcode : IsText code) (hsource : s.Issues a.container code module? source blobs)
    (key : Kind × String) : (a.issue key source blobs).Textual := by
  cases hsource with
  | module _ => exact ⟨h.blobs, h.cached⟩
  | blob _ hadded => exact ⟨h.blobs.add? hcode hadded, h.cached⟩

/-- A fragment keeps everything text, since expanding and flattening do. -/
theorem fragmentStep (h : a.Textual) (hs : s.Textual) (hstep : FragmentStep s a name d b) :
    b.Textual := by
  cases hstep with
  | empty _ _ log => exact h.setLog log
  | @stored own m blobs blobs' code source hown _ hm hcode _ hsource log =>
      have hentered := h.enter (hs.expand hown) hm
      have hcode' : IsText code := hcode ▸ hentered.blobs.flatten _ _ (hs.expand hown)
      exact ((hentered.remember hcode').issue hcode' hsource _).setLog log

/-- So does a shader module. -/
theorem shaderModuleStep (h : a.Textual) (hs : s.Textual) (hstep : ShaderModuleStep s a name d b) :
    b.Textual := by
  cases hstep with
  | missing _ log => exact h.setLog log
  | dangling _ _ _ log => exact h.setLog log
  | empty _ _ _ _ log => exact h.setLog log
  | reference _ _ hcode _ _ hsource log => exact (h.issue (h.cached _ _ hcode) hsource _).setLog log
  | legacy _ _ _ hown _ hcode _ hsource log =>
      exact (h.issue (hcode ▸ h.blobs.flatten _ _ (hs.expand hown)) hsource _).setLog log
  | runtime _ _ _ hown _ hcode hm _ hsource log =>
      have hentered := h.enter (hs.expand hown) hm
      exact (hentered.issue (hcode ▸ h.blobs.flatten _ _ (hs.expand hown)) hsource _).setLog log

/-- Taking in a declaration keeps all code text. -/
theorem take (h : a.Textual) (hs : s.Textual) (htake : a.take s x = .ok b) : b.Textual := by
  obtain ⟨kind, name, d⟩ := x
  cases kind with
  | fragment => exact h.fragmentStep hs (addFragment_step htake)
  | shaderModule => exact h.shaderModuleStep hs (addShaderModule_step htake)

/-- The run lemma: however many declarations are taken in, everything stays text. -/
theorem run {xs : List Declared} (h : a.Textual) (hs : s.Textual)
    (hrun : xs.foldlM (Assembly.take s) a = .ok b) : b.Textual := by
  induction xs generalizing a with
  | nil =>
      cases hrun
      exact h
  | cons x xs ih =>
      obtain ⟨a', htake, hrun⟩ := foldlM_cons_eq_ok.mp hrun
      exact ih (h.take hs htake) hrun

/-- The code of the declaration that is taken in next is a text. -/
theorem isText_of_pendingCode? (h : a.Textual) (hs : s.Textual)
    (hcode : a.pendingCode? s x = some code) : IsText code := by
  unfold pendingCode? at hcode
  split at hcode
  · exact h.cached _ _ hcode
  · obtain ⟨raw, -, hflat⟩ := Option.bind_eq_some_iff.mp hcode
    unfold flattened? at hflat
    split at hflat
    · cases hflat
    · next own hown =>
      split at hflat
      · cases hflat
      · cases hflat
        exact h.blobs.flatten _ _ (hs.expand hown)

end Textual

end Assembly

namespace Program

open Assembly

/-- The values of a program's defines are texts. -/
theorem textual_setting (p : Program) (check : Wgsl.Check) (files : Files) (options : Options) :
    (p.setting check files options).Textual :=
  fun _ _ hvalue => Defines.isText_of_value? hvalue

/-- **Stored code is text.** All blobs of a finished assembly are valid, and so is the flattened
code of its fragments; read as text, it is the text that was kept.

The code of a declaration is valid when the declaration is taken in, whether it is accepted or not.
So the text that the check gets is this code, and not one with replacements. -/
theorem stored_code_is_text (p : Program) (check : Wgsl.Check) (files : Files) (options : Options) :
    (∀ c, p.assembleWith check files options = .ok c →
      (∀ code ∈ c.container.blobs.blobs, Utf8.isValid code = true) ∧
      ∀ name code, c.cache.find? name = some code →
        Utf8.isValid code = true ∧ ∃ text, c.cache.text? name = some text ∧
        Utf8.encode text = code) ∧
    ∀ before x after a code, p.agenda = before ++ x :: after →
      before.foldlM (Assembly.take (p.setting check files options))
        (Assembly.empty.note p.schedule.events) = .ok a →
      a.pendingCode? (p.setting check files options) x = some code →
      Utf8.isValid code = true ∧ Utf8.encode (Utf8.decodeLossy code) = code := by
  have hs := p.textual_setting check files options
  have hempty := textual_empty p.schedule.events
  refine ⟨?_, ?_⟩
  · intro c h
    obtain ⟨a, hrun, rfl⟩ := assembleWith_eq_ok.mp h
    have ha := hempty.run hs hrun
    refine ⟨?_, ?_⟩
    · intro code hcode
      rw [show (p.completed options.mode a).container.blobs =
        a.container.blobs from finish_blobs a _] at hcode
      exact (ha.blobs.isText code hcode).isValid
    · intro name code hcode
      have htext : IsText code := by
        rw [show (p.completed options.mode a).cache = a.cache from finish_cache a _] at hcode
        exact ha.cached name code hcode
      refine ⟨htext.isValid, Utf8.decodeLossy code, ?_, htext.encode_decodeLossy⟩
      rw [CodeCache.text?, hcode, Option.map_some]
  · intro before x after a code _ hrun hcode
    have htext := (hempty.run hs hrun).isText_of_pendingCode? hs hcode
    exact ⟨htext.isValid, htext.encode_decodeLossy⟩

/-- A program whose code has characters of two, three and four bytes next to a name that is
replaced. -/
def multibyte : Program :=
  { empty with
    defines := .ofList [("GAIN", .str "½·E")]
    fragments :=
      .ofList [("main", fragmentOf "€GAIN𝄞" ["unit"]), ("unit", fragmentOf "ü=GAIN¹;" [])]
    shaderModules :=
      .ofList [("post", .ofList [("code", .text "→GAIN"), ("imports", .list [.ident "main"])])] }

/-- Characters of two, three and four bytes next to replaced names and across flattened modules are
stored as valid text, and read back. -/
theorem multibyte_text :
    (∃ c, multibyte.assembleWith noCheck noFiles .default = .ok c ∧ c.container.blobs.count = 5 ∧
      (∀ code ∈ c.container.blobs.blobs, Utf8.isValid code = true) ∧
      ∃ text, c.cache.text? "main" = some text ∧
        Utf8.encode text = Utf8.encode "ü=½·2.718281828459045¹;\n€½·2.718281828459045𝄞") ∧
    Utf8.encode (Utf8.decodeLossy (Utf8.encode "ü=½·2.718281828459045¹;")) =
      Utf8.encode "ü=½·2.718281828459045¹;" := by
  obtain ⟨hfinished, hpending⟩ := multibyte.stored_code_is_text noCheck noFiles .default
  have hagenda : multibyte.agenda =
      [] ++ ⟨.fragment, "unit", fragmentOf "ü=GAIN¹;" []⟩ :: multibyte.agenda.tail := rfl
  refine ⟨?_, (hpending _ _ _ _ _ hagenda rfl (by decide +kernel)).2⟩
  have hvalues : (multibyte.assembleWith noCheck noFiles .default).toOption.map
      (fun c => (c.container.blobs.count, c.cache.find? "main")) =
      some (5, some (Utf8.encode "ü=½·2.718281828459045¹;\n€½·2.718281828459045𝄞")) := by
        decide +kernel
  cases h : multibyte.assembleWith noCheck noFiles .default with
  | error f =>
      rw [h] at hvalues
      cases hvalues
  | ok c =>
      rw [h] at hvalues
      simp only [Except.toOption, Option.map_some, Option.some.injEq, Prod.mk.injEq] at hvalues
      obtain ⟨hblobs, hcache⟩ := hfinished c h
      exact ⟨c, rfl, hvalues.1, hblobs, (hcache "main" _ hvalues.2).2⟩

end Program

end ShaderPack
