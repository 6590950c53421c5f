/-
  File:      Persimmon/FileName.lean
  Subject:   `make_file_name`: THE NAMES OF THE REGION FILES (src/undo/mem_region/common.h).

  Everywhere else a region file is named by its base and its file id (`Region.fileName`). Here the
  characters are written, one by one, into the buffer the caller has on its stack; a write outside of
  it has no result.

  * `writeHex`, `makeFileName` -- the two functions, on a buffer;
  * `fillLoop_eq` -- the loop that writes from the last digit to the first leaves `hexDigits`;
  * `lt_hexLen`, `hexLen_le` -- the loop that counts the digits counts enough, and no more than fit;
  * `readHex_hexDigits`, `parseFileName_fileText` -- the text reads back;
  * `makeFileName_spec`, `makeFileName_faithful` -- the name fits, and is a code of base and file id.
-/
import Mathlib.Data.List.TakeWhile
import Mathlib.Tactic.Ring
import Persimmon.MemRegion

namespace Persimmon

/-! ## 1. The functions -/

/-- `FILE_NAME_BUF_LEN` -/
def fileNameBufLen : ℕ := 4 + 16 + 1 + 8 + 1

/-- `buf[i] = c` -/
def putChar (buf : List ℕ) (i c : ℕ) : Option (List ℕ) :=
  if i < buf.length then some (buf.set i c) else none

/-- Characters written one after the other from index `i` on: `*ptr++ = c`. -/
def putChars (buf : List ℕ) (i : ℕ) : List ℕ → Option (List ℕ)
  | [] => some buf
  | c :: cs => (putChar buf i c).bind fun buf => putChars buf (i + 1) cs

/-- The counting loop of `write_hex`. -/
def countLoop (copy hexLen : ℕ) : ℕ :=
  if 0 < copy then countLoop (copy >>> 4) (hexLen + 1) else hexLen
termination_by copy
decreasing_by
  rw [Nat.shiftRight_eq_div_pow]
  omega

/-- `hex_len`: zero has one digit. -/
def hexLen (number : ℕ) : ℕ := if countLoop number 0 = 0 then 1 else countLoop number 0

/-- The character of the last digit: `'0' + d` or `'a' + (d - 10)`. -/
def hexDigit (number : ℕ) : ℕ :=
  let d := number &&& 0xf
  if d < 10 then 48 + d else 97 + (d - 10)

/-- The filling loop of `write_hex`, from digit `i` down. -/
def fillLoop (p : ℕ) : ℕ → ℕ → List ℕ → Option (List ℕ)
  | 0, _, buf => some buf
  | i + 1, number, buf => (putChar buf (p + i) (hexDigit number)).bind (fillLoop p i (number >>> 4))

/-- **`write_hex`**: the buffer, and the index behind the last digit. -/
def writeHex (p number : ℕ) (buf : List ℕ) : Option (List ℕ × ℕ) :=
  (fillLoop p (hexLen number) number buf).map fun buf => (buf, p + hexLen number)

/-- **`make_file_name`** -/
def makeFileName (r : Region) (buf : List ℕ) : Option (List ℕ) := do
  let buf ← putChars buf 0 [109, 101, 109, 95]
  let (buf, ptr) ← writeHex 4 r.base buf
  let buf ← putChars buf ptr [95]
  let (buf, ptr) ← writeHex (ptr + 1) r.fileId buf
  putChar buf ptr 0

/-- The string a buffer holds: what stands before its first NUL. -/
def cString (buf : List ℕ) : List ℕ := buf.takeWhile (· != 0)

/-! ## 2. Reading a name -/

/-- The value of a digit's character. -/
def digitValue (c : ℕ) : Option ℕ :=
  if 48 ≤ c ∧ c < 58 then some (c - 48) else if 97 ≤ c ∧ c < 103 then some (c - 97 + 10) else none

/-- The number at the beginning of a text, and what follows it. -/
def readHex (acc : ℕ) : List ℕ → ℕ × List ℕ
  | [] => (acc, [])
  | c :: cs =>
      match digitValue c with
      | some d => readHex (16 * acc + d) cs
      | none => (acc, c :: cs)

/-- The two fields of a name: `mem_`, a number, `_`, a number. -/
def parseFileName : List ℕ → Option (ℕ × ℕ)
  | 109 :: 101 :: 109 :: 95 :: text =>
      match readHex 0 text with
      | (base, 95 :: text) =>
          match readHex 0 text with
          | (fileId, []) => some (base, fileId)
          | _ => none
      | _ => none
  | _ => none

/-! ## 3. What the loops write -/

/-- The last `len` digits of a number, the first one first. -/
def hexDigits : ℕ → ℕ → List ℕ
  | 0, _ => []
  | len + 1, number => hexDigits len (number >>> 4) ++ [hexDigit number]

@[simp] theorem hexDigits_length (len number : ℕ) : (hexDigits len number).length = len := by
  induction len generalizing number with
  | zero => rfl
  | succ len ih => rw [hexDigits, List.length_append, ih, List.length_singleton]

/-- **The text of a name.** -/
def fileText (r : Region) : List ℕ :=
  [109, 101, 109, 95] ++ hexDigits (hexLen r.base) r.base ++ [95] ++
    hexDigits (hexLen r.fileId) r.fileId

/-- A buffer with a text at its beginning, and the rest of it unspecified. -/
def Holds (buf text : List ℕ) : Prop := buf.take text.length = text

theorem Holds.length_le {buf text : List ℕ} (h : Holds buf text) : text.length ≤ buf.length := by
  rw [← congrArg List.length h, List.length_take]
  exact Nat.min_le_right _ _

/-- A write behind the text extends it. -/
theorem Holds.set {buf text : List ℕ} (h : Holds buf text) (c : ℕ) (hlt : text.length < buf.length) :
    Holds (buf.set text.length c) (text ++ [c]) := by
  unfold Holds at h ⊢
  rw [List.length_append, List.length_singleton, List.take_add_one, List.take_set_of_le (le_refl _),
    h, List.getElem?_set_self hlt]
  rfl

theorem putChar_holds {buf text : List ℕ} (c : ℕ) (h : Holds buf text)
    (hlt : text.length < buf.length) :
    ∃ out, putChar buf text.length c = some out ∧ out.length = buf.length ∧ Holds out (text ++ [c]) :=
  ⟨_, if_pos hlt, List.length_set, h.set c hlt⟩

theorem putChars_holds {cs buf text : List ℕ} (h : Holds buf text)
    (hle : text.length + cs.length ≤ buf.length) :
    ∃ out, putChars buf text.length cs = some out ∧ out.length = buf.length ∧
      Holds out (text ++ cs) := by
  induction cs generalizing buf text with
  | nil => exact ⟨buf, rfl, rfl, by rwa [List.append_nil]⟩
  | cons c cs ih =>
      rw [List.length_cons] at hle
      obtain ⟨buf', h1, h2, h3⟩ := putChar_holds c h (by omega)
      have hlen : (text ++ [c]).length = text.length + 1 := by simp
      obtain ⟨out, h4, h5, h6⟩ := ih h3 (by omega)
      rw [hlen] at h4
      refine ⟨out, ?_, h5.trans h2, by rwa [List.append_assoc] at h6⟩
      rw [putChars, h1, Option.bind_some, h4]

/-- **The filling loop leaves the digits** between what stood before them and behind them. -/
theorem fillLoop_eq {p len number : ℕ} {buf : List ℕ} (h : p + len ≤ buf.length) :
    fillLoop p len number buf =
      some (buf.take p ++ hexDigits len number ++ buf.drop (p + len)) := by
  induction len generalizing number buf with
  | zero => simp [fillLoop, hexDigits]
  | succ len ih =>
      have hlt : p + len < buf.length := by omega
      rw [fillLoop, putChar, if_pos hlt, Option.bind_some, ih (by rw [List.length_set]; omega),
        List.take_set_of_le (Nat.le_add_right p len), hexDigits]
      -- the digit written last by the smaller loop's caller is the first one behind its digits
      have hdrop : (buf.set (p + len) (hexDigit number)).drop (p + len) =
          hexDigit number :: buf.drop (p + (len + 1)) := by
        rw [List.drop_eq_getElem_cons (by rwa [List.length_set]), List.getElem_set_self,
          List.drop_set_of_lt (Nat.lt_succ_self _)]
        rfl
      rw [hdrop, List.append_assoc, List.append_assoc, List.append_assoc, List.singleton_append]

theorem writeHex_holds {buf text : List ℕ} {number : ℕ} (h : Holds buf text)
    (hle : text.length + hexLen number ≤ buf.length) :
    ∃ out, writeHex text.length number buf = some (out, text.length + hexLen number) ∧
      out.length = buf.length ∧ Holds out (text ++ hexDigits (hexLen number) number) := by
  refine ⟨buf.take text.length ++ hexDigits (hexLen number) number ++
    buf.drop (text.length + hexLen number), ?_, ?_, ?_⟩
  · rw [writeHex, fillLoop_eq hle, Option.map_some]
  · rw [List.length_append, List.length_append, hexDigits_length, List.length_take,
      List.length_drop]
    omega
  · unfold Holds at h ⊢
    rw [h, List.take_left']
    rfl

/-! ## 4. The number of digits -/

theorem countLoop_add (copy hexLen : ℕ) : countLoop copy hexLen = countLoop copy 0 + hexLen := by
  induction copy using Nat.strong_induction_on generalizing hexLen with
  | _ copy ih =>
      rw [countLoop, countLoop.eq_1 copy 0]
      split
      · rename_i h
        have hlt : copy >>> 4 < copy := by
          rw [Nat.shiftRight_eq_div_pow]
          omega
        rw [ih _ hlt (hexLen + 1), ih _ hlt (0 + 1)]
        omega
      · omega

theorem countLoop_succ {copy : ℕ} (h : 0 < copy) : countLoop copy 0 = countLoop (copy / 16) 0 + 1 := by
  rw [countLoop, if_pos h, countLoop_add, Nat.shiftRight_eq_div_pow]

theorem countLoop_zero : countLoop 0 0 = 0 := by
  rw [countLoop, if_neg (Nat.lt_irrefl 0)]

/-- **Enough digits are counted.** -/
theorem lt_countLoop (number : ℕ) : number < 16 ^ countLoop number 0 := by
  induction number using Nat.strong_induction_on with
  | _ number ih =>
      rcases Nat.eq_zero_or_pos number with rfl | h
      · rw [countLoop_zero, Nat.pow_zero]
        exact Nat.one_pos
      · have hlt := ih (number / 16) (Nat.div_lt_self h (by decide))
        rw [countLoop_succ h, Nat.pow_succ]
        omega

/-- **No more digits are counted than a number of that width has.** -/
theorem countLoop_le {number k : ℕ} (h : number < 16 ^ k) : countLoop number 0 ≤ k := by
  induction k generalizing number with
  | zero =>
      obtain rfl : number = 0 := by omega
      exact countLoop_zero.le
  | succ k ih =>
      rcases Nat.eq_zero_or_pos number with rfl | hpos
      · rw [countLoop_zero]
        exact Nat.zero_le _
      · rw [Nat.pow_succ] at h
        have hle := @ih (number / 16) (by omega)
        rw [countLoop_succ hpos]
        omega

theorem lt_hexLen (number : ℕ) : number < 16 ^ hexLen number := by
  have h := lt_countLoop number
  unfold hexLen
  split
  · rename_i hz
    rw [hz] at h
    omega
  · exact h

theorem hexLen_le {number k : ℕ} (hk : 0 < k) (h : number < 16 ^ k) : hexLen number ≤ k := by
  unfold hexLen
  split
  · exact hk
  · exact countLoop_le h

theorem fileText_length_lt {r : Region} (hbase : r.base < 2 ^ 64) (hid : r.fileId < 2 ^ 32) :
    (fileText r).length < fileNameBufLen := by
  have h1 : hexLen r.base ≤ 16 := hexLen_le (by decide) hbase
  have h2 : hexLen r.fileId ≤ 8 := hexLen_le (by decide) hid
  simp only [fileText, List.length_append, hexDigits_length, List.length_cons, List.length_nil,
    fileNameBufLen]
  omega

/-! ## 5. The text reads back -/

theorem and_fifteen (number : ℕ) : number &&& 0xf = number % 16 :=
  Nat.and_two_pow_sub_one_eq_mod number 4

theorem digitValue_hexDigit (number : ℕ) : digitValue (hexDigit number) = some (number % 16) := by
  have hlt : number % 16 < 16 := Nat.mod_lt _ (by decide)
  unfold hexDigit digitValue
  simp only [and_fifteen]
  split
  · rw [if_pos (by omega), Nat.add_sub_cancel_left]
  · rw [if_neg (by omega), if_pos (by omega)]
    congr 1
    omega

theorem hexDigit_ne_zero (number : ℕ) : hexDigit number ≠ 0 := by
  unfold hexDigit
  simp only
  split <;> omega

/-- **The digits of a number are read as this number**, behind what has been read of it before. -/
theorem readHex_hexDigits {len number acc : ℕ} {rest : List ℕ} (h : number < 16 ^ len) :
    readHex acc (hexDigits len number ++ rest) = readHex (acc * 16 ^ len + number) rest := by
  induction len generalizing number rest with
  | zero =>
      obtain rfl : number = 0 := by omega
      simp [hexDigits]
  | succ len ih =>
      have hlt : number / 16 < 16 ^ len := by
        rw [Nat.pow_succ] at h
        omega
      rw [hexDigits, List.append_assoc, Nat.shiftRight_eq_div_pow, ih hlt, List.singleton_append,
        readHex, digitValue_hexDigit]
      have hdiv : 16 * (number / 16) + number % 16 = number := Nat.div_add_mod number 16
      refine congrArg (readHex · rest) ?_
      calc 16 * (acc * 16 ^ len + number / 16) + number % 16
          = acc * (16 ^ len * 16) + (16 * (number / 16) + number % 16) := by ring
        _ = acc * 16 ^ (len + 1) + number := by rw [hdiv, Nat.pow_succ]

theorem parseFileName_fileText (r : Region) : parseFileName (fileText r) = some r.fileName := by
  have h1 := @readHex_hexDigits _ _ 0 (95 :: hexDigits (hexLen r.fileId) r.fileId) (lt_hexLen r.base)
  have h2 := @readHex_hexDigits _ _ 0 [] (lt_hexLen r.fileId)
  rw [Nat.zero_mul, Nat.zero_add] at h1 h2
  rw [List.append_nil] at h2
  have hstop : readHex r.base (95 :: hexDigits (hexLen r.fileId) r.fileId) =
      (r.base, 95 :: hexDigits (hexLen r.fileId) r.fileId) := rfl
  have hend : readHex r.fileId [] = (r.fileId, []) := rfl
  rw [hstop] at h1
  rw [hend] at h2
  simp only [fileText, List.cons_append, List.nil_append, List.append_assoc, parseFileName, h1, h2,
    Region.fileName]

/-! ## 6. The name -/

theorem hexDigits_ne_zero {len number c : ℕ} (h : c ∈ hexDigits len number) : c ≠ 0 := by
  induction len generalizing number with
  | zero => exact absurd h List.not_mem_nil
  | succ len ih =>
      rcases List.mem_append.mp h with h | h
      · exact ih h
      · rw [List.mem_singleton.mp h]
        exact hexDigit_ne_zero number

theorem fileText_ne_zero {r : Region} {c : ℕ} (h : c ∈ fileText r) : c ≠ 0 := by
  simp only [fileText, List.mem_append, List.mem_cons, List.not_mem_nil, or_false] at h
  rcases h with ((h | h) | h) | h
  · omega
  · exact hexDigits_ne_zero h
  · omega
  · exact hexDigits_ne_zero h

/-- The text is the string, once it is terminated. -/
theorem cString_of_holds {buf text : List ℕ} (h : Holds buf (text ++ [0])) (hne : ∀ c ∈ text, c ≠ 0) :
    cString buf = text := by
  unfold cString
  unfold Holds at h
  rw [← List.take_append_drop (text ++ [0]).length buf, h, List.append_assoc,
    List.takeWhile_append_of_pos fun c hc => bne_iff_ne.mpr (hne c hc)]
  simp

/-- **The name that is written**: all writes lie in the buffer, and the text and its NUL come out. -/
theorem makeFileName_spec {r : Region} {buf : List ℕ} (h : (fileText r).length < buf.length) :
    ∃ out, makeFileName r buf = some out ∧ out.length = buf.length ∧ cString out = fileText r ∧
      out[(fileText r).length]? = some 0 := by
  have hlen : (fileText r).length = 4 + hexLen r.base + 1 + hexLen r.fileId := by
    simp only [fileText, List.length_append, hexDigits_length, List.length_cons, List.length_nil]
  obtain ⟨b1, e1, l1, h1⟩ := @putChars_holds [109, 101, 109, 95] buf [] rfl
    (by simp only [List.length_cons, List.length_nil]; omega)
  rw [List.nil_append] at h1
  obtain ⟨b2, e2, l2, h2⟩ := @writeHex_holds _ _ r.base h1
    (by simp only [List.length_cons, List.length_nil]; omega)
  obtain ⟨b3, e3, l3, h3⟩ := @putChars_holds [95] _ _ h2
    (by simp only [List.length_append, hexDigits_length, List.length_cons, List.length_nil]; omega)
  obtain ⟨b4, e4, l4, h4⟩ := @writeHex_holds _ _ r.fileId h3
    (by simp only [List.length_append, hexDigits_length, List.length_cons, List.length_nil]; omega)
  obtain ⟨b5, e5, l5, h5⟩ := putChar_holds 0 h4 (by
    simp only [List.length_append, hexDigits_length, List.length_cons, List.length_nil]
    omega)
  simp only [List.length_append, hexDigits_length, List.length_cons, List.length_nil, Nat.zero_add,
    Nat.reduceAdd] at e1 e2 e3 e4 e5
  refine ⟨b5, ?_, by omega, cString_of_holds h5 fun c hc => fileText_ne_zero (r := r) hc, ?_⟩
  · simp only [makeFileName, e1, e2, e3, e4, e5, Option.bind_eq_bind, Option.bind_some]
  · have hget := congrArg (fun l => l[(fileText r).length]?) h5
    simpa [fileText] using hget

/-- **File names are a faithful code.** For every base of 64 bits and every file id of 32, the name
    is written inside the buffer, ends in it, reads back as base and file id, and is the name of
    no other region. -/
theorem makeFileName_faithful {r : Region} {buf : List ℕ} (hbase : r.base < 2 ^ 64)
    (hid : r.fileId < 2 ^ 32) (hbuf : fileNameBufLen ≤ buf.length) :
    ∃ out, makeFileName r buf = some out ∧ out.length = buf.length ∧
      (∃ n < fileNameBufLen, out[n]? = some 0 ∧ (cString out).length = n) ∧
      parseFileName (cString out) = some (r.base, r.fileId) ∧
      ∀ (r' : Region) (buf' out' : List ℕ), r'.base < 2 ^ 64 → r'.fileId < 2 ^ 32 →
        fileNameBufLen ≤ buf'.length → makeFileName r' buf' = some out' →
        (cString out = cString out' ↔ r.base = r'.base ∧ r.fileId = r'.fileId) := by
  have hlt := fileText_length_lt hbase hid
  obtain ⟨out, h1, h2, h3, h4⟩ := @makeFileName_spec r buf (by omega)
  refine ⟨out, h1, h2, ⟨_, hlt, h4, by rw [h3]⟩, by rw [h3, parseFileName_fileText]; rfl, ?_⟩
  intro r' buf' out' hbase' hid' hbuf' hout
  have hlt' := fileText_length_lt hbase' hid'
  obtain ⟨out'', e1, -, e3, -⟩ := @makeFileName_spec r' buf' (by omega)
  obtain rfl : out'' = out' := Option.some.inj (e1.symm.trans hout)
  rw [h3, e3]
  constructor
  · intro heq
    have hp := congrArg parseFileName heq
    rw [parseFileName_fileText, parseFileName_fileText] at hp
    exact Prod.mk.inj (Option.some.inj hp)
  · intro hboth
    obtain ⟨hb, hi⟩ := hboth
    unfold fileText
    rw [hb, hi]

theorem makeFileName_faithful_max :
    ∃ out, makeFileName ⟨2 ^ 64 - 1, 4096, 2 ^ 32 - 1⟩ (List.replicate fileNameBufLen 0) = some out ∧
      out.length = 30 ∧
      (∃ n < fileNameBufLen, out[n]? = some 0 ∧ (cString out).length = n) ∧
      parseFileName (cString out) = some (2 ^ 64 - 1, 2 ^ 32 - 1) ∧
      ∀ (r' : Region) (buf' out' : List ℕ), r'.base < 2 ^ 64 → r'.fileId < 2 ^ 32 →
        fileNameBufLen ≤ buf'.length → makeFileName r' buf' = some out' →
        (cString out = cString out' ↔ 2 ^ 64 - 1 = r'.base ∧ 2 ^ 32 - 1 = r'.fileId) :=
  makeFileName_faithful (r := ⟨2 ^ 64 - 1, 4096, 2 ^ 32 - 1⟩) (by decide) (by decide)
    (by simp [fileNameBufLen])

end Persimmon
