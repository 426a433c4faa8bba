import OsLab.Vm.Map

/-!
# Strings of the user

`copyinstr` goes through a string page by page, with two loops that share their counters.  It does
what a reader does that looks up every byte by itself.
-/

namespace OsLab.Vm

open Act List Nat

/-- Read a byte at a physical address. -/
def load8 (addr : Nat) : VmM Byte := do
  return ((← get).page (addr / pgsize)).byteAt (addr % pgsize)

/-- The inner loop of `copyinstr`: `got_null`, `max` and the bytes written to `dst`. -/
def copyPage : (n max p : Nat) → List Byte → VmM (Bool × Nat × List Byte)
  | 0, max, _, dst => return (false, max, dst)
  | n + 1, max, p, dst => do
    let c ← load8 p
    if c = 0 then
      return (true, max, dst ++ [0])
    else
      copyPage n (max - 1) (p + 1) (dst ++ [c])

/-- The outer loop of `copyinstr`. -/
def copyinstrLoop (pagetable : Nat) :
    (fuel srcva max : Nat) → List Byte → VmM (Bool × List Byte)
  | 0, _, _, _ => throw .endless
  | fuel + 1, srcva, max, dst =>
    if max = 0 then
      return (false, dst)
    else do
      let pa0 ← walkaddr pagetable (pgrounddown srcva)
      if pa0 = 0 then
        return (false, dst)
      else do
        let (gotNull, max, dst) ← copyPage (min (pgsize - (srcva - pgrounddown srcva)) max) max
          (pa0 + (srcva - pgrounddown srcva)) dst
        if gotNull then
          return (true, dst)
        else
          copyinstrLoop pagetable fuel ((pgrounddown srcva + pgsize) % 2 ^ 64) max dst

/-- `copyinstr`: whether it returns 0, and the bytes it writes to `dst`. -/
def copyinstr (pagetable srcva max : Nat) : VmM (Bool × List Byte) :=
  copyinstrLoop pagetable (max + 1) srcva max []

def strlen : List Byte → Nat
  | [] => 0
  | c :: rest => if c = 0 then 0 else strlen rest + 1

/-- `fetchstr`, with the bytes it writes to `buf`. -/
def fetchstr (pagetable addr : Nat) (max : BitVec 32) : VmM (BitVec 32 × List Byte) := do
  let (copied, buf) ← copyinstr pagetable addr (max.signExtend 64).toNat
  if copied then
    return (.ofNat 32 (strlen buf), buf)
  else
    return (-1, buf)

/-- `argstr`; the arguments are in the registers that the trap frame holds. -/
def argstr (pagetable : Nat) (arg : Fin 6 → Nat) (n : Fin 6) (max : BitVec 32) :
    VmM (BitVec 32 × List Byte) :=
  fetchstr pagetable (arg n) max

section

variable (mem : Nat → Page) (root : Nat)

/-- The byte of the user at an address: its page is below `MAXVA` and mapped with `PTE_V` and
`PTE_U`. -/
def userByte (va : Nat) : Option Byte :=
  if va < maxva then
    match translate mem root va with
    | some (pa, flags) =>
      if user flags then some ((mem (pa / pgsize)).byteAt (va % pgsize)) else none
    | none => none
  else none

/-- The string of the user at an address, up to its end or `max` bytes, and whether it ends. -/
def userString : (va max : Nat) → List Byte × Bool
  | _, 0 => ([], false)
  | va, max + 1 =>
    match userByte mem root va with
    | none => ([], false)
    | some c =>
      if c = 0 then ([0], true)
      else (c :: (userString (va + 1) max).1, (userString (va + 1) max).2)

/-- Byte `k` of the string of the user at an address is its first NUL, and all up to it is there. -/
def Terminated (va k : Nat) : Prop :=
  userByte mem root (va + k) = some 0 ∧ ∀ i < k, ∃ c, c ≠ 0 ∧ userByte mem root (va + i) = some c

end

variable {mem : Nat → Page} {root va max : Nat} {s : State}

theorem userString_none (absent : userByte mem root va = none) :
    userString mem root va max = ([], false) := by
  cases max with
  | zero => rfl
  | succ max => rw [userString, absent]

theorem userString_zero (ends : userByte mem root va = some 0) :
    userString mem root va (max + 1) = ([0], true) := by
  rw [userString, ends]
  rfl

theorem userString_cons {c : Byte} (here : userByte mem root va = some c) (more : c ≠ 0) :
    userString mem root va (max + 1) =
      (c :: (userString mem root (va + 1) max).1, (userString mem root (va + 1) max).2) := by
  rw [userString, here]
  exact if_neg more

/-- The bytes in front of `n` are there, and the string goes on behind them. -/
theorem userString_add {n : Nat} (present : ∀ i < n, userByte mem root (va + i) ≠ none)
    (max : Nat) : userString mem root va (n + max) =
      if (userString mem root va n).2 then userString mem root va n
      else ((userString mem root va n).1 ++ (userString mem root (va + n) max).1,
        (userString mem root (va + n) max).2) := by
  induction n generalizing va with
  | zero => simp [userString]
  | succ n ih =>
    obtain ⟨c, here⟩ : ∃ c, userByte mem root va = some c :=
      Option.ne_none_iff_exists'.mp (present 0 (by omega))
    rw [show n + 1 + max = n + max + 1 by omega]
    by_cases ends : c = 0
    · subst ends
      rw [userString_zero here, userString_zero here]
      rfl
    · have rest := ih fun i below => by
        have := present (i + 1) (by omega)
        rwa [← add_assoc, add_right_comm] at this
      rw [userString_cons here ends, userString_cons here ends, rest, add_right_comm va,
        add_assoc va n]
      split <;> rfl

theorem load8_of_page {page off : Nat} (inside : off < pgsize) :
    load8 (page * pgsize + off) s = .ok ((s.page page).byteAt off, s) := by
  have number : (page * pgsize + off) / pgsize = page := by
    rw [add_comm, add_mul_div_right _ _ (by decide), div_eq_of_lt inside, zero_add]
  have offset : (page * pgsize + off) % pgsize = off := by
    rw [add_comm, add_mul_mod_self_right, mod_eq_of_lt inside]
  change Except.ok _ = _
  rw [number, offset]

/-- The inner loop reads a page as the user's string. -/
theorem copyPage_eq {n left page off : Nat} {dst : List Byte} (inside : off + n ≤ pgsize)
    (bytes : ∀ i < n, userByte s.page root (va + i) = some ((s.page page).byteAt (off + i))) :
    ∃ max, copyPage n (n + left) (page * pgsize + off) dst s =
        .ok (((userString s.page root va n).2, max, dst ++ (userString s.page root va n).1), s) ∧
      ((userString s.page root va n).2 = false → max = left) := by
  induction n generalizing va off dst with
  | zero => exact ⟨left, by simp [copyPage, userString]; rfl, fun _ => rfl⟩
  | succ n ih =>
    have here : userByte s.page root va = some ((s.page page).byteAt off) := bytes 0 (by omega)
    rw [copyPage, bind_of_ok (load8_of_page (by omega))]
    by_cases ends : (s.page page).byteAt off = 0
    · rw [if_pos ends, userString_zero (here.trans (congrArg some ends))]
      exact ⟨_, rfl, by simp⟩
    rw [if_neg ends, userString_cons here ends]
    obtain ⟨max, copied, kept⟩ := @ih (va + 1) (off + 1) (dst ++ [(s.page page).byteAt off])
      (by omega) fun i below => by
        have byte := bytes (i + 1) (by omega)
        rwa [← add_assoc, add_right_comm va, ← add_assoc off,
          add_right_comm off] at byte
    refine ⟨max, ?_, kept⟩
    rw [show n + 1 + left - 1 = n + left by omega, add_assoc, copied]
    simp

/-- The user's pages are not at the physical address 0. -/
def Backed (mem : Nat → Page) (root : Nat) : Prop :=
  ∀ va pa flags, va < maxva → translate mem root va = some (pa, flags) → user flags = true → pa ≠ 0

theorem translate_pgrounddown (inside : va < maxva) :
    translate mem root (pgrounddown va) = translate mem root va := by
  have same : indices (pgrounddown va) = indices va := by
    refine (indices_inj ?_ inside).mpr ?_
    · exact lt_of_le_of_lt (div_mul_le_self ..) inside
    · exact Nat.mul_div_cancel _ (by decide)
  rw [translate, same, translate]

theorem userByte_of_page {pa flags i : Nat} (inside : va < maxva)
    (mapped : translate mem root va = some (pa, flags)) (open_ : user flags = true)
    (near : va % pgsize + i < pgsize) :
    userByte mem root (va + i) = some ((mem (pa / pgsize)).byteAt (va % pgsize + i)) := by
  have page : (va + i) / pgsize = va / pgsize ∧ (va + i) % pgsize = va % pgsize + i := by
    simp only [pgsize] at near ⊢
    omega
  have within : va + i < maxva := by
    simp only [pgsize, maxva] at page inside ⊢
    omega
  have same : translate mem root (va + i) = some (pa, flags) := by
    rw [translate, (indices_inj within inside).mpr page.1, ← translate, mapped]
  rw [userByte, if_pos within, same, page.2]
  exact if_pos open_

theorem userByte_of_closed (closed : ∀ pa flags, va < maxva →
    translate mem root va = some (pa, flags) → ¬ user flags = true) :
    userByte mem root va = none := by
  rw [userByte]
  split
  · rename_i inside
    split
    · rename_i pa flags mapped
      exact if_neg (closed pa flags inside mapped)
    · rfl
  · rfl

section

variable (linked : Linked s.page root) (backed : Backed s.page root)
include linked backed

theorem walkaddr_page : ∃ pa, walkaddr root (pgrounddown va) s = .ok (pa, s) ∧
    (pa = 0 ∧ userByte s.page root va = none ∨
      pa ≠ 0 ∧ va < maxva ∧ pgsize ∣ pa ∧ ∀ i, va % pgsize + i < pgsize →
        userByte s.page root (va + i) =
          some ((s.page (pa / pgsize)).byteAt (va % pgsize + i))) := by
  by_cases inside : va < maxva
  · have down : pgrounddown va < maxva := lt_of_le_of_lt (div_mul_le_self ..) inside
    rw [walkaddr_eq linked down, translate_pgrounddown inside]
    cases mapped : translate s.page root va with
    | none =>
      refine ⟨0, rfl, .inl ⟨rfl, userByte_of_closed fun pa flags _ found => ?_⟩⟩
      rw [mapped] at found
      cases found
    | some entry =>
      obtain ⟨pa, flags⟩ := entry
      by_cases open_ : user flags = true
      · refine ⟨pa, by simp [open_], .inr ⟨backed va pa flags inside mapped open_, inside, ?_,
          fun i => userByte_of_page inside mapped open_⟩⟩
        rw [translate] at mapped
        split at mapped
        · cases mapped
          exact pgsize_dvd_pte2pa _
        · cases mapped
      · refine ⟨0, by simp [open_], .inl ⟨rfl, userByte_of_closed fun pa' flags' _ found => ?_⟩⟩
        obtain ⟨rfl, rfl⟩ := Prod.mk.inj (Option.mem_unique mapped found)
        exact open_
  · refine ⟨0, ?_, .inl ⟨rfl, if_neg inside⟩⟩
    rw [walkaddr, if_pos]
    · rfl
    · simp only [pgrounddown, pgsize, maxva] at inside ⊢
      omega

/-- The outer loop reads what is left of the user's string. -/
theorem copyinstrLoop_eq {fuel : Nat} {dst : List Byte} (enough : max < fuel) :
    copyinstrLoop root fuel va max dst s =
      .ok (((userString s.page root va max).2, dst ++ (userString s.page root va max).1), s) := by
  induction fuel generalizing va max dst with
  | zero => omega
  | succ fuel ih =>
    rw [copyinstrLoop]
    by_cases empty : max = 0
    · rw [if_pos empty, empty, userString]
      simp
      rfl
    rw [if_neg empty]
    obtain ⟨pa, found, ⟨null, absent⟩ | ⟨pos, inside, ⟨page, rfl⟩, bytes⟩⟩ :=
      @walkaddr_page root va s linked backed
    · rw [bind_of_ok found, if_pos null, userString_none absent]
      simp
      rfl
    have offset : va - pgrounddown va = va % pgsize := by
      simp only [pgrounddown, pgsize]
      omega
    have low : va % pgsize < pgsize := mod_lt _ (by decide)
    obtain ⟨n, small⟩ : ∃ n, min (pgsize - va % pgsize) max = n := ⟨_, rfl⟩
    obtain ⟨left, rfl⟩ : ∃ left, max = n + left := ⟨max - n, by omega⟩
    rw [Nat.mul_div_cancel_left _ (by decide : 0 < pgsize)] at bytes
    have near : ∀ i < n, userByte s.page root (va + i) =
        some ((s.page page).byteAt (va % pgsize + i)) := fun i below => bytes i (by omega)
    obtain ⟨rest, copied, kept⟩ := @copyPage_eq root va s n left page _ dst (by omega) near
    rw [bind_of_ok found, if_neg pos, offset, small, mul_comm pgsize, bind_of_ok copied,
      userString_add (fun i below => by simp [near i below])]
    cases ended : (userString s.page root va n).2 with
    | true =>
      simp only [if_true, ended]
      rfl
    | false =>
      obtain rfl := kept ended
      refine (ih (by omega)).trans ?_
      -- behind a whole page the string goes on at the next one
      rcases Nat.eq_zero_or_pos rest with rfl | more
      · simp [userString]
      · have next : (pgrounddown va + pgsize) % 2 ^ 64 = va + n := by
          simp only [pgrounddown, pgsize, maxva] at inside small ⊢
          omega
        rw [next]
        simp

theorem copyinstr_eq : copyinstr root va max s =
    .ok (((userString s.page root va max).2, (userString s.page root va max).1), s) :=
  copyinstrLoop_eq linked backed (lt_succ_self max)

end

theorem length_userString_le : (userString mem root va max).1.length ≤ max := by
  induction max generalizing va with
  | zero => exact le_rfl
  | succ max ih =>
    rw [userString]
    split
    · exact zero_le _
    · split
      · exact succ_le_succ (zero_le _)
      · exact succ_le_succ ih

theorem Terminated.tail {k : Nat} (ends : Terminated mem root va (k + 1)) :
    Terminated mem root (va + 1) k := by
  refine ⟨?_, fun i below => ?_⟩
  · rw [add_assoc, add_comm 1]
    exact ends.1
  · rw [add_assoc, add_comm 1]
    exact ends.2 (i + 1) (by omega)

/-- A string with its end among the first `max` bytes is read as it is. -/
theorem Terminated.userString {k : Nat} (ends : Terminated mem root va k) (short : k < max) :
    (userString mem root va max).2 = true ∧ (Vm.userString mem root va max).1.length = k + 1 ∧
      (∀ i ≤ k, (Vm.userString mem root va max).1[i]? = userByte mem root (va + i)) ∧
      strlen (Vm.userString mem root va max).1 = k := by
  obtain ⟨max, rfl⟩ : ∃ m, max = m + 1 := ⟨max - 1, by omega⟩
  induction k generalizing va max with
  | zero =>
    have here : userByte mem root va = some 0 := ends.1
    rw [userString_zero here]
    refine ⟨rfl, rfl, fun i first => ?_, rfl⟩
    obtain rfl : i = 0 := by omega
    exact here.symm
  | succ k ih =>
    obtain ⟨c, more, here⟩ : ∃ c, c ≠ 0 ∧ userByte mem root va = some c := ends.2 0 (by omega)
    obtain ⟨max, rfl⟩ : ∃ m, max = m + 1 := ⟨max - 1, by omega⟩
    obtain ⟨found, length, same, counted⟩ := ih ends.tail max (by omega)
    rw [userString_cons here more]
    refine ⟨found, by simp [length], fun i inside => ?_, by rw [strlen, if_neg more, counted]⟩
    cases i with
    | zero => exact here.symm
    | succ i =>
      rw [List.getElem?_cons_succ, same i (by omega), add_assoc, add_comm 1]

/-- Only such a string is read to its end. -/
theorem terminated_of_userString (found : (userString mem root va max).2 = true) :
    ∃ k < max, Terminated mem root va k := by
  induction max generalizing va with
  | zero => cases found
  | succ max ih =>
    rw [userString] at found
    split at found
    · cases found
    rename_i c here
    split at found
    · rename_i zero
      exact ⟨0, by omega, here.trans (congrArg some zero), fun i below => by omega⟩
    rename_i more
    obtain ⟨k, short, ends, before⟩ := ih found
    refine ⟨k + 1, by omega, ?_, fun i below => ?_⟩
    · rwa [add_assoc, add_comm 1] at ends
    · cases i with
      | zero => exact ⟨c, more, here⟩
      | succ i =>
        rw [add_comm i, ← add_assoc]
        exact before i (by omega)

/-- `copyinstr` ends, writes at most `max` bytes and returns 0, with the string copied, for the
strings that end among the first `max` bytes, all of them readable; otherwise it returns -1. -/
theorem copyinstr_exact (linked : Linked s.page root) (backed : Backed s.page root) :
    (∀ srcva max, ∃ ok dst, copyinstr root srcva max s = .ok ((ok, dst), s) ∧ dst.length ≤ max ∧
      (ok = true ↔ ∃ k < max, Terminated s.page root srcva k) ∧
      ∀ k < max, Terminated s.page root srcva k →
        dst.length = k + 1 ∧ ∀ i ≤ k, dst[i]? = userByte s.page root (srcva + i)) ∧
    ∀ arg n max, ∃ r buf, argstr root arg n max s = .ok ((r, buf), s) ∧
      (∀ k < (max.signExtend 64).toNat, Terminated s.page root (arg n) k → r = .ofNat 32 k) ∧
      ((∀ k < (max.signExtend 64).toNat, ¬ Terminated s.page root (arg n) k) → r = -1) := by
  refine ⟨fun srcva max => ?_, fun arg n max => ?_⟩
  · refine ⟨_, _, copyinstr_eq linked backed, length_userString_le,
      ⟨terminated_of_userString, ?_⟩, fun k short ends => ?_⟩
    · rintro ⟨k, short, ends⟩
      exact (ends.userString short).1
    · obtain ⟨-, length, same, -⟩ := ends.userString short
      exact ⟨length, same⟩
  · rw [argstr, fetchstr, bind_of_ok (copyinstr_eq linked backed)]
    cases found : (userString s.page root (arg n) (max.signExtend 64).toNat).2 with
    | true =>
      refine ⟨_, _, rfl, fun k short ends => ?_, fun never => ?_⟩
      · rw [(ends.userString short).2.2.2]
      · obtain ⟨k, short, ends⟩ := terminated_of_userString found
        exact absurd ends (never k short)
    | false =>
      refine ⟨_, _, rfl, fun k short ends => ?_, fun _ => rfl⟩
      rw [(ends.userString short).1] at found
      cases found

def stringPage : Page := fun i => if i.val = 4095 then 0 else 0x11

/-- Every entry of every table maps a page for the user, and every page ends with a NUL. -/
def strings : State := ⟨fun _ => stringPage, [], fun _ => false⟩

theorem slot_strings {path : List Nat} {root i : Nat}
    (present : valid (slot strings.page root (i :: path)) = true) :
    pte2pa (slot strings.page root (i :: path)) ≠ 0 := by
  cases found : node strings.page root path with
  | none =>
    rw [slot_of_missing found] at present
    cases present
  | some table =>
    rw [slot_of_node found] at present ⊢
    change pte2pa (stringPage.getLE (8 * i) 8) ≠ 0
    have inside : ∀ j < 512, pte2pa (stringPage.getLE (8 * j) 8) ≠ 0 := by decide +kernel
    refine inside i (by_contra fun above => ?_)
    have zero : stringPage.getLE (8 * i) 8 = 0 := by
      refine (Bytes.getLE_congr fun r from_ _ => ?_).trans (Bytes.getLE_zero (8 * i) 8)
      have outside : ¬ r < pgsize := by
        simp only [pgsize]
        omega
      rw [Bytes.byteAt, dif_neg outside, Bytes.byteAt, dif_neg outside]
    change valid (stringPage.getLE (8 * i) 8) = true at present
    rw [zero] at present
    cases present

theorem strings_linked : Linked strings.page pgsize := by
  refine ⟨dvd_rfl, fun path table _ found => ?_⟩
  cases path with
  | nil =>
    cases found
    decide
  | cons i path =>
    obtain ⟨present, rfl⟩ := target_eq_some.mp (node_cons.symm.trans found)
    exact slot_strings present

theorem strings_backed : Backed strings.page pgsize := by
  intro va pa flags _ mapped _
  rw [translate] at mapped
  split at mapped
  · rename_i present
    cases mapped
    exact slot_strings present
  · cases mapped

/-- Two bytes and a NUL in front of the end of a page. -/
theorem copyinstr_exact_strings :
    ∃ dst, copyinstr pgsize 4093 3 strings = .ok ((true, dst), strings) ∧ dst.length = 3 := by
  have ends : Terminated strings.page pgsize 4093 2 :=
    ⟨by decide +kernel, fun i below => ⟨0x11, by decide, by
      revert i
      decide +kernel⟩⟩
  obtain ⟨ok, dst, copied, -, found, same⟩ :=
    (copyinstr_exact strings_linked strings_backed).1 4093 3
  obtain rfl := found.mpr ⟨2, by decide, ends⟩
  exact ⟨dst, copied, (same 2 (by decide) ends).1⟩

def maxpath : BitVec 32 := 128

def procSize : Nat := 360

/-- Where in `struct proc` its last field begins, the 16 bytes of `name`. -/
def nameOffset : Nat := 344

/-- Bytes by their distance from the array `name` of `sys_rename` on the stack, and by their
distance from the array `proc`. -/
structure Names where
  frame : Nat → Byte
  proc : Nat → Byte

/-- Store bytes from an index on. -/
def put (mem : Nat → Byte) (start : Nat) (bytes : List Byte) (a : Nat) : Byte :=
  if start ≤ a then (bytes[a - start]?).getD (mem a) else mem a

/-- What `sys_rename` returns and leaves in memory, and how many bytes it has written of `name` and
of `p->name`, from index 0 on. -/
structure Renamed where
  result : Int
  names : Names
  buffer : Nat
  field : Nat

/-- `sys_rename` of the process in slot `p` behind `argstr`, which has copied `name`. -/
def renamed (p : Nat) (k : Names) (len : BitVec 32) (name : List Byte) : Renamed :=
  let frame := put k.frame 0 name
  let start := p * procSize + nameOffset
  if len.slt 0 then
    ⟨-1, { k with frame }, name.length, 0⟩
  else
    let moved := put k.proc start ((List.range len.toNat).map frame)
    ⟨0, ⟨frame, put moved (start + len.toNat) [0]⟩, name.length, len.toNat + 1⟩

def sysRename (pagetable : Nat) (arg : Fin 6 → Nat) (p : Nat) (k : Names) : VmM Renamed := do
  let (len, name) ← argstr pagetable arg 0 maxpath
  return renamed p k len name

/-- All that is written lies in the two arrays, the other slots stay as they are, and with the
result 0 the process has the user's string as its name. -/
structure Contained (mem : Nat → Page) (root va p : Nat) (k : Names) (r : Renamed) : Prop where
  buffer : ∀ i < r.buffer, i < 16
  field : ∀ i < r.field, i < 16
  others : ∀ a, a / procSize ≠ p → r.names.proc a = k.proc a
  named : r.result = 0 → ∃ n, Terminated mem root va n ∧ ∀ i ≤ n,
    some (r.names.proc (p * procSize + nameOffset + i)) = userByte mem root (va + i)

/-- The user's string can be read beyond 16 bytes. -/
def Overlong (mem : Nat → Page) (root va : Nat) : Prop :=
  (∀ i < 16, ∃ c, c ≠ 0 ∧ userByte mem root (va + i) = some c) ∧ userByte mem root (va + 16) ≠ none

theorem lt_length_userString {n : Nat} (short : n < max) :
    n < (userString mem root va max).1.length ↔
      (∀ i < n, ∃ c, c ≠ 0 ∧ userByte mem root (va + i) = some c) ∧
        userByte mem root (va + n) ≠ none := by
  induction n generalizing va max with
  | zero =>
    obtain ⟨max, rfl⟩ : ∃ m, max = m + 1 := ⟨max - 1, by omega⟩
    rw [userString]
    cases here : userByte mem root va with
    | none => simp
    | some c => by_cases ends : c = 0#8 <;> simp [ends]
  | succ n ih =>
    obtain ⟨max, rfl⟩ : ∃ m, max = m + 1 := ⟨max - 1, by omega⟩
    have tail := @ih (va + 1) max (by omega)
    rw [forall_lt_succ_left']
    cases here : userByte mem root va with
    | none => simp [userString_none here]
    | some c =>
      by_cases ends : c = 0#8
      · subst ends
        simp [userString_zero here]
      · simp only [userString_cons here ends, length_cons, succ_lt_succ_iff, tail]
        simp [ends, add_assoc, add_comm 1]

variable {bytes : List Byte} {before : Nat → Byte}

theorem put_of_lt {start i : Nat} (inside : i < bytes.length) :
    put before start bytes (start + i) = bytes[i] := by
  simp [put, inside]

theorem put_outside {start a : Nat} (outside : a < start ∨ start + bytes.length ≤ a) :
    put before start bytes a = before a := by
  rw [put]
  split
  · rw [List.getElem?_eq_none (by omega)]
    rfl
  · rfl

variable {k : Names}

theorem Contained.length_le {va p : Nat} {r : Renamed} (contained : Contained mem root va p k r) :
    r.buffer ≤ 16 :=
  Nat.le_of_not_lt fun more => absurd (contained.buffer 16 more) (by decide)

variable {name : List Byte}

theorem renamed_of_length {p n : Nat} (short : n < 128) :
    renamed p k (.ofNat 32 n) name =
      ⟨0, ⟨put k.frame 0 name, put (put k.proc (p * procSize + nameOffset)
        ((List.range n).map (put k.frame 0 name))) (p * procSize + nameOffset + n) [0]⟩,
        name.length, n + 1⟩ := by
  have small : ∀ n < 128, ¬ (BitVec.ofNat 32 n).slt 0 = true ∧ (BitVec.ofNat 32 n).toNat = n := by
    decide
  obtain ⟨positive, value⟩ := small n short
  rw [renamed, if_neg positive, value]

/-- A string of at most 15 bytes becomes the name of the process, and nothing else changes. -/
theorem contained_of_terminated {p n : Nat} (ends : Terminated mem root va n) (small : n < 16)
    (length : name.length = n + 1) (same : ∀ i ≤ n, name[i]? = userByte mem root (va + i)) :
    Contained mem root va p k (renamed p k (.ofNat 32 n) name) := by
  rw [renamed_of_length (by omega)]
  refine ⟨fun i below => ?_, fun i below => ?_, fun a other => ?_, fun _ => ⟨n, ends, ?_⟩⟩
  · simp only [length] at below
    omega
  · simp only at below
    omega
  · have apart : a < p * procSize + nameOffset ∨ p * procSize + nameOffset + 16 ≤ a := by
      simp only [procSize, nameOffset] at other ⊢
      omega
    refine (put_outside ?_).trans (put_outside ?_)
    · rw [length_singleton]
      omega
    · rw [length_map, length_range]
      omega
  · intro i inside
    rcases lt_or_eq_of_le inside with before | rfl
    · have here : i < name.length := by omega
      simp only
      rw [put_outside (by omega), put_of_lt (by simpa using before), getElem_map,
        getElem_range, ← same i inside, List.getElem?_eq_getElem here]
      simp [put, here]
    · rw [ends.1]
      simp [put]

/-- `sys_rename` stays in its arrays if and only if the user's string cannot be read beyond 16
bytes. -/
theorem sysRename_contained_iff (linked : Linked s.page root) (backed : Backed s.page root)
    (arg : Fin 6 → Nat) (p : Nat) (k : Names) :
    ∃ r, sysRename root arg p k s = .ok (r, s) ∧
      (Contained s.page root (arg 0) p k r ↔ ¬ Overlong s.page root (arg 0)) := by
  have bound : (maxpath.signExtend 64).toNat = 128 := rfl
  have long := @lt_length_userString s.page root (arg 0) 128 16 (by decide)
  rw [sysRename, argstr, fetchstr, bound, bind_assoc, bind_of_ok (copyinstr_eq linked backed)]
  cases found : (userString s.page root (arg 0) 128).2 with
  | true =>
    obtain ⟨n, short, ends⟩ := terminated_of_userString found
    obtain ⟨-, length, same, counted⟩ := ends.userString short
    refine ⟨_, rfl, ?_⟩
    rw [counted]
    refine ⟨fun contained overlong => ?_, fun fits => ?_⟩
    · rw [renamed_of_length short] at contained
      exact absurd (long.mpr overlong) (not_lt.mpr contained.length_le)
    · have fits : n < 16 := by_contra fun more => fits (long.mp (by omega))
      exact contained_of_terminated ends fits length same
  | false =>
    refine ⟨_, rfl, fun contained overlong => ?_, fun fits => ?_⟩
    · exact absurd (long.mpr overlong) (not_lt.mpr contained.length_le)
    · refine ⟨fun i below => ?_, fun i below => ?_, fun a _ => rfl, fun zero => ?_⟩
      · exact lt_of_lt_of_le below (Nat.le_of_not_lt fun more => fits (long.mp more))
      · exact absurd below (Nat.not_lt_zero i)
      · cases zero

/-- Two bytes and a NUL become the name of the process in slot 1. -/
theorem sysRename_contained_short : ∃ r, sysRename pgsize (fun _ => 4093) 1 ⟨fun _ => 0, fun _ => 0⟩
    strings = .ok (r, strings) ∧
      Contained strings.page pgsize 4093 1 ⟨fun _ => 0, fun _ => 0⟩ r := by
  obtain ⟨r, called, contained⟩ := sysRename_contained_iff strings_linked strings_backed
    (fun _ => 4093) 1 ⟨fun _ => 0, fun _ => 0⟩
  refine ⟨r, called, contained.mpr fun overlong => ?_⟩
  obtain ⟨c, nonzero, here⟩ := overlong.1 2 (by decide)
  exact nonzero (Option.mem_unique here (by decide +kernel))

/-- With 16 bytes and a NUL the call returns 0, has written 17 bytes of each array, and the lock of
the next slot, which was held, is free. -/
theorem sysRename_frees_lock :
    (sysRename pgsize (fun _ => 4079) 0 ⟨fun _ => 0, fun _ => 1⟩ strings).toOption.map (fun done =>
      (done.1.result, done.1.buffer, done.1.field, done.1.names.proc procSize)) =
        some (0, 17, 17, 0) := by
  decide +kernel

end OsLab.Vm
