import Nsync.Word

/-!
# Debug output

The functions of `internal/debug.c` that write into a buffer of fixed length.  A
character of memory is a `Char`, a pointer into memory is a number, and `uintptr_t`
has `W` bits.  A shift by `W` bits or more and a format that `emit_print` does not
understand have no result.
-/

namespace Nsync.Emit

def nul : Char := '\x00'

/-! ## The buffer -/

/-- A `struct emit_buf`, together with the memory that it points into. -/
@[ext] structure EmitBuf where
  mem : ℕ → Char
  start : ℕ
  len : ℕ
  pos : ℕ
  overflow : Bool

/-- `emit_init` -/
def emitInit (mem : ℕ → Char) (start len : ℕ) : EmitBuf := ⟨mem, start, len, 0, false⟩

/-- The bytes of `suffix`. -/
def suffix : List Char := ['.', '.', '.', nul]

/-- The loop that copies the suffix backwards: `s` characters of it and the memory before
`p` are left. -/
def copySuffix (mem : ℕ → Char) (start : ℕ) : ℕ → ℕ → ℕ → Char
  | 0, _ => mem
  | s + 1, p =>
      if start < p then
        copySuffix (Function.update mem (p - 1) (suffix.getD s nul)) start s (p - 1)
      else mem

/-- `emit_c` -/
def emitC (b : EmitBuf) (c : Char) : EmitBuf :=
  if b.pos < b.len then
    { b with mem := Function.update b.mem (b.start + b.pos) c, pos := b.pos + 1 }
  else if !b.overflow then
    { b with mem := copySuffix b.mem b.start suffix.length (b.start + b.len), overflow := true }
  else b

/-! ## Formats -/

variable {W : ℕ}

/-- The loop of `%i` that looks for the first digit. -/
def findShift (n : BitVec W) (i : ℕ) : Option ℕ :=
  if i < W then
    if 0x10 ≤ (n >>> i).toNat then findShift n (i + 4) else some i
  else none
  termination_by W - i

/-- The loop of `%i` that emits the digits. -/
def emitDigits (n : BitVec W) (b : EmitBuf) (i : ℕ) : Option EmitBuf :=
  if i < W then
    let b' := emitC b ("0123456789abcdef".toList.getD ((n >>> i).toNat &&& 0xf) nul)
    if 4 ≤ i then emitDigits n b' (i - 4) else some b'
  else none
  termination_by i

/-- An argument of `emit_print`. -/
inductive Arg (W : ℕ) where
  | s (s : List Char)
  | i (n : BitVec W)

/-- `emit_print` -/
def emitPrint (b : EmitBuf) : List Char → List (Arg W) → Option EmitBuf
  | [], _ => some b
  | '%' :: 's' :: fmt, .s s :: args => emitPrint (s.foldl emitC b) fmt args
  | '%' :: 'i' :: fmt, .i n :: args =>
      (findShift n 0).bind fun i => (emitDigits n b i).bind fun b' => emitPrint b' fmt args
  | '%' :: _, _ => none
  | c :: fmt, args => emitPrint (emitC b c) fmt args

/-! ## Words and waiters -/

/-- A `struct bit_name`. -/
structure BitName where
  mask : Word
  name : List Char

/-- `mu_bit`, without the sentinel. -/
def muBit : List BitName :=
  [⟨muWlock, "wlock".toList⟩, ⟨muSpinlock, "spin".toList⟩, ⟨muWaiting, "wait".toList⟩,
    ⟨muDesigWaker, "desig".toList⟩, ⟨muCondition, "cond".toList⟩, ⟨muWriterWaiting, "writer".toList⟩,
    ⟨muLongWait, "long".toList⟩, ⟨muAllFalse, "false".toList⟩]

/-- `cv_bit` -/
def cvBit : List BitName := [⟨1#32 <<< 0, "spin".toList⟩, ⟨1#32 <<< 1, "wait".toList⟩]

/-- `waiter_flags_bit` -/
def waiterFlagsBit : List BitName := [⟨0x1#32, "rsrvd".toList⟩, ⟨0x2#32, "in_use".toList⟩]

/-- `emit_word` -/
def emitWord (W : ℕ) (b : EmitBuf) (name : List BitName) (word : Word) : Option EmitBuf :=
  match name with
  | [] => some b
  | x :: name =>
      if word &&& x.mask ≠ 0#32 then
        (emitPrint b " %s".toList [(.s x.name : Arg W)]).bind fun b' => emitWord W b' name word
      else emitWord W b name word

/-- The lock type that a waiter waits for. -/
inductive LType where
  | writer
  | reader
  | other

/-- What `emit_waiters` reads of a waiter; `sameAs` is the waiter after it in its ring
of equal conditions, if that is another one. -/
structure Waiter (W : ℕ) where
  addr : BitVec W
  tag : Word
  nwTag : Word
  flags : Word
  waiting : Word
  lType : LType
  removeCount : Word
  condF : BitVec W
  condV : BitVec W
  condEq : BitVec W
  sameAs : Option (BitVec W)

/-- `WAITER_TAG` -/
def waiterTag : Word := 0x0590239f#32

/-- `NSYNC_WAITER_TAG` -/
def nsyncWaiterTag : Word := 0x726d2ba9#32

/-- `NSYNC_WAITER_FLAG_MUCV` -/
def nsyncWaiterFlagMucv : Word := 0x1#32

def LType.name : LType → List Char
  | .writer => "writer".toList
  | .reader => "reader".toList
  | .other => "??????".toList

/-- What `emit_waiters` emits for a waiter with the right tag, before the end of the
line. -/
def emitWaiter (b : EmitBuf) (w : Waiter W) : Option EmitBuf :=
  (if w.nwTag ≠ nsyncWaiterTag then
      emitPrint b " bad WAITER_TAG %i".toList [.i (w.nwTag.setWidth W)]
    else
      emitPrint b " embedded=%i waiting=%i".toList
        [.i ((w.flags &&& nsyncWaiterFlagMucv).setWidth W), .i (w.waiting.setWidth W)]).bind fun b =>
  (emitWord W b waiterFlagsBit w.flags).bind fun b =>
  (emitPrint b " %s removes=%i cond=(%i %i %i)".toList
    [.s w.lType.name, .i (w.removeCount.setWidth W), .i w.condF, .i w.condV, .i w.condEq]).bind
      fun b =>
  match w.sameAs with
  | some x => emitPrint b " same_as %i".toList [.i x]
  | none => some b

/-- The loop of `emit_waiters`. -/
def emitWaiterLoop (b : EmitBuf) : List (Waiter W) → Option EmitBuf
  | [] => some b
  | w :: list =>
      if b.overflow then some b
      else
        (emitPrint b "   %i".toList [.i w.addr]).bind fun b =>
        if w.tag ≠ waiterTag then
          (emitPrint b "bad WAITER_TAG %i".toList [(.i (w.tag.setWidth W) : Arg W)]).bind fun b =>
          some (emitC b '\n')
        else (emitWaiter b w).bind fun b => emitWaiterLoop (emitC b '\n') list

/-- `emit_waiters` -/
def emitWaiters (b : EmitBuf) (list : List (Waiter W)) : Option EmitBuf :=
  (if list ≠ [] then emitPrint b "\nwaiters =\n".toList ([] : List (Arg W)) else some b).bind
    fun b => emitWaiterLoop b list

/-! ## States -/

/-- What `emit_mu_state` emits once it has the word, with the waiters if it prints
them. -/
def emitMuState (b : EmitBuf) (mu : BitVec W) (word : Word) (waiters : Option (List (Waiter W))) :
    Option EmitBuf :=
  (emitPrint b "mu 0x%i -> 0x%i = \x7b".toList [.i mu, .i (word.setWidth W)]).bind fun b =>
  (emitWord W b muBit word).bind fun b =>
  (if word / muRlock ≠ 0#32 then
      emitPrint b " readers=0x%i".toList [(.i ((word / muRlock).setWidth W) : Arg W)]
    else some b).bind fun b =>
  (emitPrint b " \x7d".toList ([] : List (Arg W))).bind fun b =>
  (match waiters with
    | some list => emitWaiters b list
    | none => some b).bind fun b =>
  some (emitC b nul)

/-- What `emit_cv_state` emits once it has the word. -/
def emitCvState (b : EmitBuf) (cv : BitVec W) (word : Word) (waiters : Option (List (Waiter W))) :
    Option EmitBuf :=
  (emitPrint b "cv 0x%i -> 0x%i = \x7b".toList [.i cv, .i (word.setWidth W)]).bind fun b =>
  (emitWord W b cvBit word).bind fun b =>
  (emitPrint b " \x7d".toList ([] : List (Arg W))).bind fun b =>
  (match waiters with
    | some list => emitWaiters b list
    | none => some b).bind fun b =>
  some (emitC b nul)

/-! ## The full text -/

/-- The hexadecimal numeral of a number. -/
def numeral (n : ℕ) : List Char := Nat.toDigits 16 n

/-- The text of a format, if it is understood. -/
def printText : List Char → List (Arg W) → Option (List Char)
  | [], _ => some []
  | '%' :: 's' :: fmt, .s s :: args => (printText fmt args).map (s ++ ·)
  | '%' :: 'i' :: fmt, .i n :: args => (printText fmt args).map (numeral n.toNat ++ ·)
  | '%' :: _, _ => none
  | c :: fmt, args => (printText fmt args).map (c :: ·)

/-- The text of one of the formats of the source. -/
def printed (fmt : String) (args : List (Arg W)) : List Char := (printText fmt.toList args).getD []

def wordText (W : ℕ) (name : List BitName) (word : Word) : List Char :=
  name.flatMap fun x => if word &&& x.mask ≠ 0#32 then printed " %s" [(.s x.name : Arg W)] else []

def waiterText (w : Waiter W) : List Char :=
  (if w.nwTag ≠ nsyncWaiterTag then printed " bad WAITER_TAG %i" [.i (w.nwTag.setWidth W)]
    else printed " embedded=%i waiting=%i"
      [.i ((w.flags &&& nsyncWaiterFlagMucv).setWidth W), .i (w.waiting.setWidth W)]) ++
  wordText W waiterFlagsBit w.flags ++
  printed " %s removes=%i cond=(%i %i %i)"
    [.s w.lType.name, .i (w.removeCount.setWidth W), .i w.condF, .i w.condV, .i w.condEq] ++
  match w.sameAs with
  | some x => printed " same_as %i" [.i x]
  | none => []

def waiterLoopText : List (Waiter W) → List Char
  | [] => []
  | w :: list =>
      printed "   %i" [.i w.addr] ++
        if w.tag ≠ waiterTag then
          printed "bad WAITER_TAG %i" [(.i (w.tag.setWidth W) : Arg W)] ++ ['\n']
        else waiterText w ++ '\n' :: waiterLoopText list

def waitersText (list : List (Waiter W)) : List Char :=
  (if list ≠ [] then "\nwaiters =\n".toList else []) ++ waiterLoopText list

/-! ## The buffer after any characters -/

/-- The memory with `l` written from `start` on. -/
def write (mem : ℕ → Char) (start : ℕ) (l : List Char) (a : ℕ) : Char :=
  if start ≤ a then l.getD (a - start) (mem a) else mem a

/-- What is in the buffer after the characters `l` have been emitted. -/
def contents (len : ℕ) (l : List Char) : List Char :=
  if l.length ≤ len then l else l.take (len - 4) ++ suffix.drop (4 - len)

theorem write_nil (mem : ℕ → Char) (start : ℕ) : write mem start [] = mem := by
  funext a
  simp [write]

theorem write_concat (mem : ℕ → Char) (start : ℕ) (l : List Char) (c : Char) :
    Function.update (write mem start l) (start + l.length) c = write mem start (l ++ [c]) := by
  funext a
  by_cases ha : a = start + l.length
  · subst ha
    simp [write]
  · rw [Function.update_of_ne ha, write, write]
    by_cases hs : start ≤ a
    · rw [if_pos hs, if_pos hs]
      by_cases hlt : a - start < l.length
      · simp [List.getD_eq_getElem?_getD, List.getElem?_append_left hlt]
      · have hlen : l.length + 1 ≤ a - start := by omega
        simp [List.getD_eq_getElem?_getD, List.getElem?_eq_none (by omega : l.length ≤ a - start),
          List.getElem?_eq_none (by simpa using hlen : (l ++ [c]).length ≤ a - start)]
    · rw [if_neg hs, if_neg hs]

theorem copySuffix_apply {start p : ℕ} (mem : ℕ → Char) (s a : ℕ) (hp : start ≤ p) :
    copySuffix mem start s p a =
      if start ≤ a ∧ p ≤ a + s ∧ a < p then suffix.getD (a + s - p) nul else mem a := by
  induction s generalizing mem p with
  | zero =>
      rw [copySuffix, if_neg]
      omega
  | succ s ih =>
      rw [copySuffix]
      by_cases hlt : start < p
      · rw [if_pos hlt, ih _ (by omega)]
        by_cases ha : a = p - 1
        · subst ha
          rw [if_neg (by omega), if_pos (by omega), Function.update_self]
          congr 1
          omega
        · rw [Function.update_of_ne ha]
          by_cases hin : start ≤ a ∧ p - 1 ≤ a + s ∧ a < p - 1
          · rw [if_pos hin, if_pos (by omega)]
            congr 1
            omega
          · rw [if_neg hin, if_neg (by omega)]
      · rw [if_neg hlt, if_neg (by omega)]

/-- The suffix over the end of a full buffer. -/
theorem copySuffix_write (mem : ℕ → Char) (start : ℕ) (l : List Char) :
    copySuffix (write mem start l) start suffix.length (start + l.length) =
      write mem start (l.take (l.length - 4) ++ suffix.drop (4 - l.length)) := by
  funext a
  rw [copySuffix_apply _ _ _ (by omega), show suffix.length = 4 from rfl]
  have htake : (l.take (l.length - 4)).length = l.length - 4 := by simp
  by_cases hin : start ≤ a ∧ start + l.length ≤ a + 4 ∧ a < start + l.length
  · rw [if_pos hin, write, if_pos hin.1, List.getD_eq_getElem?_getD, List.getD_eq_getElem?_getD,
      List.getElem?_append_right (by omega), htake, List.getElem?_drop]
    have hidx : 4 - l.length + (a - start - (l.length - 4)) = a + 4 - (start + l.length) := by omega
    have hsome : a + 4 - (start + l.length) < suffix.length := by
      rw [show suffix.length = 4 from rfl]
      omega
    rw [hidx, List.getElem?_eq_getElem hsome]
    rfl
  · rw [if_neg hin, write, write]
    by_cases hs : start ≤ a
    · rw [if_pos hs, if_pos hs, List.getD_eq_getElem?_getD, List.getD_eq_getElem?_getD]
      by_cases hlt : a - start < l.length - 4
      · rw [List.getElem?_append_left (by omega), List.getElem?_take_of_lt hlt]
      · have hlen : (suffix.drop (4 - l.length)).length = min 4 l.length := by
          rw [List.length_drop, show suffix.length = 4 from rfl]
          omega
        rw [List.getElem?_eq_none (by omega), List.getElem?_eq_none]
        rw [List.length_append, htake, hlen]
        omega
    · rw [if_neg hs, if_neg hs]

theorem foldl_emitC (mem : ℕ → Char) (start len : ℕ) (l : List Char) :
    l.foldl emitC (emitInit mem start len) =
      ⟨write mem start (contents len l), start, len, min l.length len, decide (len < l.length)⟩ := by
  induction l using List.reverseRecOn with
  | nil =>
      simp [emitInit, contents, write_nil]
  | append_singleton l c ih =>
      rw [List.foldl_concat, ih, emitC]
      rcases lt_trichotomy l.length len with h | h | h
      · have h1 : contents len l = l := by rw [contents, if_pos h.le]
        have h2 : contents len (l ++ [c]) = l ++ [c] := by
          rw [contents, if_pos (by rw [List.length_append, List.length_singleton]; omega)]
        rw [if_pos (by simpa using h)]
        simp only [h1, h2, min_eq_left h.le, write_concat, EmitBuf.mk.injEq, true_and]
        simp
        omega
      · subst h
        have h1 : contents l.length l = l := by rw [contents, if_pos le_rfl]
        have h2 : contents l.length (l ++ [c]) =
            l.take (l.length - 4) ++ suffix.drop (4 - l.length) := by
          rw [contents, if_neg (by simp), List.take_append_of_le_length (by omega)]
        rw [if_neg (by simp), if_pos (by simp)]
        simp only [h1, h2, copySuffix_write, EmitBuf.mk.injEq, true_and]
        simp
      · have h1 : contents len (l ++ [c]) = contents len l := by
          rw [contents, contents, if_neg (by simp; omega), if_neg (by omega),
            List.take_append_of_le_length (by omega)]
        rw [if_neg (by simp; omega), if_neg (by simpa using h), h1]
        simp only [EmitBuf.mk.injEq, true_and]
        simp
        omega

/-! ## Numerals -/

theorem toNat_shiftRight (n : BitVec W) (i : ℕ) : (n >>> i).toNat = n.toNat / 2 ^ i := by
  rw [BitVec.toNat_ushiftRight, Nat.shiftRight_eq_div_pow]

/-- The digits of `n` from the digit number `k` down. -/
def digitsFrom (n : ℕ) : ℕ → List Char
  | 0 => [Nat.digitChar (n % 16)]
  | k + 1 => Nat.digitChar (n / 16 ^ (k + 1) % 16) :: digitsFrom n k

theorem digitsFrom_succ (n k : ℕ) :
    digitsFrom n (k + 1) = digitsFrom (n / 16) k ++ [Nat.digitChar (n % 16)] := by
  induction k with
  | zero => simp [digitsFrom]
  | succ k ih =>
      rw [digitsFrom, ih, digitsFrom, List.cons_append, Nat.div_div_eq_div_mul, pow_succ' 16 (k + 1)]

/-- From its first digit that is not zero on, a number has the digits of its shortest
numeral. -/
theorem digitsFrom_eq_numeral {n k : ℕ} (hlt : n < 16 ^ (k + 1)) (hle : k = 0 ∨ 16 ^ k ≤ n) :
    digitsFrom n k = numeral n := by
  induction k generalizing n with
  | zero =>
      have hn : n < 16 := by simpa using hlt
      rw [numeral, Nat.toDigits_of_lt_base hn, digitsFrom, Nat.mod_eq_of_lt hn]
  | succ k ih =>
      have hle' : 16 ^ (k + 1) ≤ n := by simpa using hle
      have hbase : 16 ≤ n := (Nat.le_self_pow (by omega) 16).trans hle'
      rw [digitsFrom_succ, ih, numeral, numeral, Nat.toDigits_of_base_le (by omega) hbase]
      · rw [Nat.div_lt_iff_lt_mul (by omega), ← pow_succ]
        exact hlt
      · right
        rw [Nat.le_div_iff_mul_le (by omega), ← pow_succ]
        exact hle'

theorem hexDigit (x : ℕ) : "0123456789abcdef".toList.getD (x &&& 0xf) nul = Nat.digitChar (x % 16) := by
  have hand : x &&& 0xf = x % 16 := Nat.and_two_pow_sub_one_eq_mod x 4
  rw [hand]
  have hlt : x % 16 < 16 := Nat.mod_lt _ (by omega)
  generalize x % 16 = y at hlt
  interval_cases y <;> rfl

theorem emitDigits_eq (n : BitVec W) (b : EmitBuf) (k : ℕ) (hk : 4 * k < W) :
    emitDigits n b (4 * k) = some ((digitsFrom n.toNat k).foldl emitC b) := by
  have hpow : ∀ j, 2 ^ (4 * j) = 16 ^ j := fun j => by rw [pow_mul]; norm_num
  induction k generalizing b with
  | zero =>
      rw [emitDigits, if_pos hk, hexDigit, toNat_shiftRight, if_neg (by omega)]
      simp [digitsFrom]
  | succ k ih =>
      rw [emitDigits, if_pos hk, hexDigit, toNat_shiftRight, if_pos (by omega), hpow,
        show 4 * (k + 1) - 4 = 4 * k by omega, ih _ (by omega), digitsFrom, List.foldl_cons]

/-- The search for the first digit never shifts by the width of the word. -/
theorem findShift_eq (n : BitVec W) (k : ℕ) (hk : 4 * k < W) (hle : k = 0 ∨ 16 ^ k ≤ n.toNat) :
    ∃ j, findShift n (4 * k) = some (4 * j) ∧ 4 * j < W ∧ n.toNat < 16 ^ (j + 1) ∧
      (j = 0 ∨ 16 ^ j ≤ n.toNat) := by
  have hpow : 2 ^ (4 * k) = 16 ^ k := by rw [pow_mul]; norm_num
  induction h : W - 4 * k using Nat.strong_induction_on generalizing k with
  | _ m ih =>
      rw [findShift, if_pos hk, toNat_shiftRight, hpow]
      by_cases hbig : 0x10 ≤ n.toNat / 16 ^ k
      · rw [if_pos hbig, show 4 * k + 4 = 4 * (k + 1) by omega]
        have hle' : 16 ^ (k + 1) ≤ n.toNat := by
          rw [Nat.le_div_iff_mul_le (by positivity), ← pow_succ'] at hbig
          exact hbig
        have hk' : 4 * (k + 1) < W := by
          by_contra hcon
          have hlt := n.isLt
          have hmono : 2 ^ W ≤ 2 ^ (4 * (k + 1)) := Nat.pow_le_pow_right (by omega) (by omega)
          have hpow' : 2 ^ (4 * (k + 1)) = 16 ^ (k + 1) := by rw [pow_mul]; norm_num
          omega
        exact ih (W - 4 * (k + 1)) (by omega) (k + 1) hk' (Or.inr hle')
          (by rw [pow_mul]; norm_num) rfl
      · rw [if_neg hbig]
        refine ⟨k, rfl, hk, ?_, hle⟩
        rw [Nat.not_le, Nat.div_lt_iff_lt_mul (by positivity), ← pow_succ'] at hbig
        exact hbig

/-! ## Emission of texts -/

/-- The characters that fit were written: after an overflow there is no room left. -/
def EmitBuf.Full (b : EmitBuf) : Prop := b.overflow = true → b.len ≤ b.pos

theorem emitC_full {b : EmitBuf} (hb : b.Full) (c : Char) : (emitC b c).Full := by
  rw [emitC]
  split
  · next hlt =>
      intro ho
      have := hb ho
      omega
  · split
    · next hge _ => exact fun _ => Nat.le_of_not_lt hge
    · exact hb

theorem foldl_full {b : EmitBuf} (hb : b.Full) (l : List Char) : (l.foldl emitC b).Full := by
  induction l generalizing b with
  | nil => exact hb
  | cons c l ih => exact ih (emitC_full hb c)

/-- Nothing is written after an overflow. -/
theorem foldl_of_overflow {b : EmitBuf} (hb : b.Full) (ho : b.overflow = true) (l : List Char) :
    l.foldl emitC b = b := by
  induction l with
  | nil => rfl
  | cons c l ih =>
      have hc : emitC b c = b := by
        rw [emitC, if_neg (Nat.not_lt.mpr (hb ho)), if_neg (by simp [ho])]
      rw [List.foldl_cons, hc, ih]

/-- The function `e` emits the text `l`. -/
def Emits (e : EmitBuf → Option EmitBuf) (l : List Char) : Prop :=
  ∀ b : EmitBuf, b.Full → e b = some (l.foldl emitC b)

namespace Emits

variable {e e' : EmitBuf → Option EmitBuf} {l l' : List Char}

theorem nil : Emits some [] := fun _ _ => rfl

theorem char (c : Char) : Emits (fun b => some (emitC b c)) [c] := fun _ _ => rfl

theorem bind (h : Emits e l) (h' : Emits e' l') : Emits (fun b => (e b).bind e') (l ++ l') := by
  intro b hb
  simp only [h b hb, Option.bind_some, h' _ (foldl_full hb l), List.foldl_append]

theorem congr (h : Emits e l) (heq : ∀ b, e' b = e b) : Emits e' l := fun b hb => by
  rw [heq, h b hb]

end Emits

theorem emitPrint_eq (hW : 0 < W) {fmt : List Char} {args : List (Arg W)} {l : List Char}
    (h : printText fmt args = some l) (b : EmitBuf) :
    emitPrint b fmt args = some (l.foldl emitC b) := by
  induction fmt, args using printText.induct generalizing b l with
  | case1 =>
      cases h
      rfl
  | case2 fmt s args ih =>
      rw [printText] at h
      obtain ⟨l', hl', rfl⟩ := Option.map_eq_some_iff.mp h
      rw [emitPrint, ih hl', List.foldl_append]
  | case3 fmt n args ih =>
      rw [printText] at h
      obtain ⟨l', hl', rfl⟩ := Option.map_eq_some_iff.mp h
      obtain ⟨j, hj, hjW, hlt, hle⟩ := findShift_eq n 0 hW (Or.inl rfl)
      rw [emitPrint, show findShift n 0 = some (4 * j) from hj, Option.bind_some,
        emitDigits_eq n b j hjW, Option.bind_some, digitsFrom_eq_numeral hlt hle, ih hl',
        List.foldl_append]
  | case4 fmt args h1 h2 =>
      rw [printText] at h
      · cases h
      all_goals assumption
  | case5 c fmt args h1 h2 h3 ih =>
      rw [printText] at h
      · obtain ⟨l', hl', rfl⟩ := Option.map_eq_some_iff.mp h
        rw [emitPrint, ih hl', List.foldl_cons]
        all_goals assumption
      all_goals assumption

section

variable (hW : 0 < W)

include hW

theorem emits_print {fmt : List Char} {args : List (Arg W)} {l : List Char}
    (h : printText fmt args = some l) : Emits (emitPrint · fmt args) l :=
  fun b _ => emitPrint_eq hW h b

/-- The formats of the source are understood. -/
theorem emits_printed (fmt : String) (args : List (Arg W))
    (h : (printText fmt.toList args).isSome = true) :
    Emits (emitPrint · fmt.toList args) (printed fmt args) := by
  obtain ⟨l, hl⟩ := Option.isSome_iff_exists.mp h
  rw [printed, hl]
  exact emits_print hW hl

theorem emits_word (name : List BitName) (word : Word) :
    Emits (emitWord W · name word) (wordText W name word) := by
  induction name with
  | nil => exact Emits.nil
  | cons x name ih =>
      rw [wordText, List.flatMap_cons]
      by_cases hx : word &&& x.mask ≠ 0#32
      · rw [if_pos hx]
        refine ((emits_printed hW " %s" [.s x.name] rfl).bind ih).congr ?_
        intro b
        rw [emitWord, if_pos hx]
      · rw [if_neg hx, List.nil_append]
        refine ih.congr fun b => ?_
        rw [emitWord, if_neg hx]

theorem emits_waiter (w : Waiter W) : Emits (emitWaiter · w) (waiterText w) := by
  have htag : Emits (fun b => if w.nwTag ≠ nsyncWaiterTag then
        emitPrint b " bad WAITER_TAG %i".toList [.i (w.nwTag.setWidth W)]
      else emitPrint b " embedded=%i waiting=%i".toList
        [.i ((w.flags &&& nsyncWaiterFlagMucv).setWidth W), .i (w.waiting.setWidth W)])
      (if w.nwTag ≠ nsyncWaiterTag then printed " bad WAITER_TAG %i" [.i (w.nwTag.setWidth W)]
      else printed " embedded=%i waiting=%i"
        [.i ((w.flags &&& nsyncWaiterFlagMucv).setWidth W), .i (w.waiting.setWidth W)]) := by
    split <;> exact emits_printed hW _ _ rfl
  have hsame : Emits (fun b => match w.sameAs with
      | some x => emitPrint b " same_as %i".toList [.i x]
      | none => some b) (match w.sameAs with
      | some x => printed " same_as %i" [.i x]
      | none => []) := by
    cases w.sameAs with
    | some x => exact emits_printed hW _ _ rfl
    | none => exact Emits.nil
  have hfields := emits_printed hW " %s removes=%i cond=(%i %i %i)"
    [.s w.lType.name, .i (w.removeCount.setWidth W), .i w.condF, .i w.condV, .i w.condEq] rfl
  rw [waiterText, List.append_assoc, List.append_assoc]
  exact htag.bind ((emits_word hW waiterFlagsBit w.flags).bind (hfields.bind hsame))

/-- The loop over the waiters ends early only when nothing more would be written. -/
theorem emits_waiterLoop (list : List (Waiter W)) :
    Emits (emitWaiterLoop · list) (waiterLoopText list) := by
  induction list with
  | nil => exact Emits.nil
  | cons w list ih =>
      have haddr := emits_printed hW "   %i" [.i w.addr] rfl
      have hline : Emits (fun b => if w.tag ≠ waiterTag then
            (emitPrint b "bad WAITER_TAG %i".toList [(.i (w.tag.setWidth W) : Arg W)]).bind fun b =>
            some (emitC b '\n')
          else (emitWaiter b w).bind fun b => emitWaiterLoop (emitC b '\n') list)
          (if w.tag ≠ waiterTag then
            printed "bad WAITER_TAG %i" [(.i (w.tag.setWidth W) : Arg W)] ++ ['\n']
          else waiterText w ++ '\n' :: waiterLoopText list) := by
        split
        · exact (emits_printed hW _ _ rfl).bind (Emits.char '\n')
        · exact (emits_waiter hW w).bind ((Emits.char '\n').bind ih)
      intro b hb
      change emitWaiterLoop b (w :: list) = _
      rw [emitWaiterLoop]
      by_cases ho : b.overflow = true
      · rw [if_pos ho, foldl_of_overflow hb ho]
      · rw [if_neg ho]
        exact (haddr.bind hline) b hb

theorem emits_waiters (list : List (Waiter W)) : Emits (emitWaiters · list) (waitersText list) := by
  have hhead : Emits (fun b => if list ≠ [] then
        emitPrint b "\nwaiters =\n".toList ([] : List (Arg W)) else some b)
      (if list ≠ [] then "\nwaiters =\n".toList else []) := by
    split
    · exact emits_print hW rfl
    · exact Emits.nil
  exact hhead.bind (emits_waiterLoop hW list)

end

/-! ## Truncation -/

/-- A call of one of the functions that emit. -/
inductive Item (W : ℕ) where
  | char (c : Char)
  | print (fmt : List Char) (args : List (Arg W))
  | word (name : List BitName) (word : Word)
  | waiters (list : List (Waiter W))

def Item.emit : Item W → EmitBuf → Option EmitBuf
  | .char c, b => some (emitC b c)
  | .print fmt args, b => emitPrint b fmt args
  | .word name w, b => emitWord W b name w
  | .waiters list, b => emitWaiters b list

def Item.text : Item W → Option (List Char)
  | .char c => some [c]
  | .print fmt args => printText fmt args
  | .word name w => some (wordText W name w)
  | .waiters list => some (waitersText list)

/-- The calls one after the other. -/
def emitAll : List (Item W) → EmitBuf → Option EmitBuf
  | [], b => some b
  | x :: items, b => (x.emit b).bind (emitAll items)

/-- The full text of the calls, if their formats are understood. -/
def textAll : List (Item W) → Option (List Char)
  | [] => some []
  | x :: items => x.text.bind fun l => (textAll items).map (l ++ ·)

theorem emits_item (hW : 0 < W) {x : Item W} {l : List Char} (h : x.text = some l) :
    Emits x.emit l := by
  cases x with
  | char c =>
      cases h
      exact Emits.char c
  | print fmt args => exact emits_print hW h
  | word name word =>
      cases h
      exact emits_word hW name word
  | waiters list =>
      cases h
      exact emits_waiters hW list

theorem emits_all (hW : 0 < W) {items : List (Item W)} {l : List Char}
    (h : textAll items = some l) : Emits (emitAll items) l := by
  induction items generalizing l with
  | nil =>
      cases h
      exact Emits.nil
  | cons x items ih =>
      rw [textAll] at h
      obtain ⟨l₁, h₁, h⟩ := Option.bind_eq_some_iff.mp h
      obtain ⟨l₂, h₂, rfl⟩ := Option.map_eq_some_iff.mp h
      exact (emits_item hW h₁).bind (ih h₂)

/-- What a buffer of `n` characters holds of a text: the text and its nul, or the end of
the suffix after the characters of the text that are left. -/
def truncated (n : ℕ) (l : List Char) : List Char :=
  if l.length + 1 ≤ n then l ++ [nul] else l.take (n - 4) ++ suffix.drop (4 - min n 4)

theorem contents_nul (n : ℕ) (l : List Char) : contents n (l ++ [nul]) = truncated n l := by
  rw [contents, truncated, List.length_append, List.length_singleton]
  split
  · rfl
  · rw [List.take_append_of_le_length (by omega)]
    congr 2
    omega

/-- What `emit_mu_state` prints. -/
def muText (mu : BitVec W) (word : Word) (waiters : Option (List (Waiter W))) : List Char :=
  printed "mu 0x%i -> 0x%i = \x7b" [.i mu, .i (word.setWidth W)] ++ (wordText W muBit word ++
    ((if word / muRlock ≠ 0#32 then
        printed " readers=0x%i" [(.i ((word / muRlock).setWidth W) : Arg W)] else []) ++
      (" \x7d".toList ++ (waiters.map waitersText).getD [])))

/-- What `emit_cv_state` prints. -/
def cvText (cv : BitVec W) (word : Word) (waiters : Option (List (Waiter W))) : List Char :=
  printed "cv 0x%i -> 0x%i = \x7b" [.i cv, .i (word.setWidth W)] ++ (wordText W cvBit word ++
    (" \x7d".toList ++ (waiters.map waitersText).getD []))

section

variable (hW : 0 < W)

include hW

theorem emits_waiters_option (waiters : Option (List (Waiter W))) :
    Emits (fun b => match waiters with
      | some list => emitWaiters b list
      | none => some b) ((waiters.map waitersText).getD []) := by
  cases waiters with
  | some list => exact emits_waiters hW list
  | none => exact Emits.nil

theorem emits_muState (mu : BitVec W) (word : Word) (waiters : Option (List (Waiter W))) :
    Emits (emitMuState · mu word waiters) (muText mu word waiters ++ [nul]) := by
  have hreaders : Emits (fun b => if word / muRlock ≠ 0#32 then
        emitPrint b " readers=0x%i".toList [(.i ((word / muRlock).setWidth W) : Arg W)] else some b)
      (if word / muRlock ≠ 0#32 then
        printed " readers=0x%i" [(.i ((word / muRlock).setWidth W) : Arg W)] else []) := by
    split
    · exact emits_printed hW _ _ rfl
    · exact Emits.nil
  have hbrace := emits_print hW
    (show printText " \x7d".toList ([] : List (Arg W)) = some " \x7d".toList from rfl)
  simp only [muText, List.append_assoc]
  exact (emits_printed hW _ _ rfl).bind ((emits_word hW muBit word).bind (hreaders.bind
    (hbrace.bind ((emits_waiters_option hW waiters).bind (Emits.char nul)))))

theorem emits_cvState (cv : BitVec W) (word : Word) (waiters : Option (List (Waiter W))) :
    Emits (emitCvState · cv word waiters) (cvText cv word waiters ++ [nul]) := by
  have hbrace := emits_print hW
    (show printText " \x7d".toList ([] : List (Arg W)) = some " \x7d".toList from rfl)
  simp only [cvText, List.append_assoc]
  exact (emits_printed hW _ _ rfl).bind ((emits_word hW cvBit word).bind
    (hbrace.bind ((emits_waiters_option hW waiters).bind (Emits.char nul))))

end

/-- The buffer `buf[0..n-1]` at `start` holds the text `l` truncated as documented, and
no other memory has changed. -/
structure Holds (mem mem' : ℕ → Char) (start n : ℕ) (l : List Char) : Prop where
  outside : ∀ a, a < start ∨ start + n ≤ a → mem' a = mem a
  length_le : (truncated n l).length ≤ n
  inside : ∀ i c, (truncated n l)[i]? = some c → mem' (start + i) = c
  terminated : (truncated n l).getLast? = some nul

theorem length_truncated {n : ℕ} {l : List Char} (h : ¬ l.length + 1 ≤ n) :
    (truncated n l).length = n := by
  rw [truncated, if_neg h, List.length_append, List.length_take, List.length_drop,
    show suffix.length = 4 from rfl]
  omega

theorem Holds.write {n : ℕ} (hn : 1 ≤ n) (mem : ℕ → Char) (start : ℕ) (l : List Char) :
    Holds mem (write mem start (truncated n l)) start n l := by
  have hlen : (truncated n l).length ≤ n := by
    by_cases h : l.length + 1 ≤ n
    · rw [truncated, if_pos h, List.length_append]
      exact h
    · exact (length_truncated h).le
  refine ⟨fun a ha => ?_, hlen, fun i c hi => ?_, ?_⟩
  · rw [Emit.write]
    by_cases hs : start ≤ a
    · rw [if_pos hs, List.getD_eq_getElem?_getD, List.getElem?_eq_none (by omega)]
      rfl
    · rw [if_neg hs]
  · rw [Emit.write, if_pos (by omega), Nat.add_sub_cancel_left, List.getD_eq_getElem?_getD, hi]
    rfl
  · rw [truncated]
    split
    · exact List.getLast?_concat ..
    · have hdrop : (suffix.drop (4 - min n 4)).getLast? = some nul := by
        rw [List.getLast?_drop, if_neg]
        · rfl
        · rw [show suffix.length = 4 from rfl]
          omega
      rw [List.getLast?_append, hdrop]
      rfl

/-- Emission of a text and its nul into a buffer. -/
theorem Emits.holds {e : EmitBuf → Option EmitBuf} {l : List Char} (h : Emits e (l ++ [nul]))
    {n : ℕ} (hn : 1 ≤ n) (mem : ℕ → Char) (start : ℕ) :
    ∃ b, e (emitInit mem start n) = some b ∧ Holds mem b.mem start n l := by
  refine ⟨_, h _ (fun ho => by cases ho), ?_⟩
  rw [foldl_emitC, contents_nul]
  exact Holds.write hn mem start l

/-- Debug output is truncated as documented: any calls of the functions that emit, and
those of the state functions, leave in the buffer their full text or what `truncated`
says of it, and every number is printed as its shortest numeral. -/
theorem output_truncated (hW : 0 < W) {n : ℕ} (hn : 1 ≤ n) (mem : ℕ → Char) (start : ℕ) :
    (∀ (items : List (Item W)) l, textAll items = some l →
      ∃ b, (emitAll items (emitInit mem start n)).map (emitC · nul) = some b ∧
        Holds mem b.mem start n l) ∧
    (∀ (mu : BitVec W) word waiters, ∃ b,
      emitMuState (emitInit mem start n) mu word waiters = some b ∧
        Holds mem b.mem start n (muText mu word waiters)) ∧
    (∀ (cv : BitVec W) word waiters, ∃ b,
      emitCvState (emitInit mem start n) cv word waiters = some b ∧
        Holds mem b.mem start n (cvText cv word waiters)) ∧
    (∀ (x : BitVec W), ∃ b,
      (emitPrint (emitInit mem start n) "%i".toList [.i x]).map (emitC · nul) = some b ∧
        Holds mem b.mem start n (Nat.toDigits 16 x.toNat)) := by
  have hall : ∀ (items : List (Item W)) l, textAll items = some l →
      ∃ b, (emitAll items (emitInit mem start n)).map (emitC · nul) = some b ∧
        Holds mem b.mem start n l := by
    intro items l hl
    have hemits : Emits (fun b => (emitAll items b).map (emitC · nul)) (l ++ [nul]) :=
      ((emits_all hW hl).bind (Emits.char nul)).congr fun b => Option.map_eq_bind ..
    exact hemits.holds hn mem start
  refine ⟨hall, fun mu word waiters => (emits_muState hW mu word waiters).holds hn mem start,
    fun cv word waiters => (emits_cvState hW cv word waiters).holds hn mem start, fun x => ?_⟩
  obtain ⟨b, hb, hholds⟩ := hall [.print "%i".toList [.i x]] (numeral x.toNat)
    (by simp [textAll, Item.text, printText])
  refine ⟨b, ?_, hholds⟩
  rw [← hb]
  simp [emitAll, Item.emit]

theorem output_truncated_beef :
    (∃ b, (emitPrint (emitInit (fun _ => ' ') 8 5) "%i".toList [.i 0xbeef#64]).map (emitC · nul) =
        some b ∧ (b.mem 7 = ' ' ∧ b.mem 8 = 'b' ∧ b.mem 11 = 'f' ∧ b.mem 12 = nul ∧
          b.mem 13 = ' ')) ∧
    ∃ b, (emitPrint (emitInit (fun _ => ' ') 8 3) "%i".toList [.i 0xbeef#64]).map (emitC · nul) =
        some b ∧ (b.mem 7 = ' ' ∧ b.mem 8 = '.' ∧ b.mem 10 = nul ∧ b.mem 11 = ' ') := by
  obtain ⟨b, hb, hholds⟩ := (output_truncated (W := 64) (by decide) (n := 5) (by decide)
    (fun _ => ' ') 8).2.2.2 0xbeef#64
  obtain ⟨b', hb', hholds'⟩ := (output_truncated (W := 64) (by decide) (n := 3) (by decide)
    (fun _ => ' ') 8).2.2.2 0xbeef#64
  refine ⟨⟨b, hb, hholds.outside 7 (by decide), hholds.inside 0 'b' (by decide +kernel),
      hholds.inside 3 'f' (by decide +kernel), hholds.inside 4 nul (by decide +kernel),
      hholds.outside 13 (by decide)⟩,
    ⟨b', hb', hholds'.outside 7 (by decide), hholds'.inside 0 '.' (by decide +kernel),
      hholds'.inside 2 nul (by decide +kernel), hholds'.outside 11 (by decide)⟩⟩

end Nsync.Emit
