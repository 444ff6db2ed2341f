import Xv6Fairness.ExecProgram
import Xv6Fairness.SyscallArguments

/-!
# Arguments from one program to the next

A program that calls `exec` has the path, the strings and an array of pointers to them in its
memory. `sys_exec` looks them up there, and the program that runs next finds the same strings on its
stack.
-/

namespace Xv6Fairness

open VirtualMemory (argsSize PGSIZE Linked Panic Runnable Restored Started exec_outcome)

namespace SyscallArguments

variable (p : Proc)

/-- The bytes of a string up to the first 0. -/
def Proc.string (a : UInt32) : List UInt8 := ((scan p.mem p.sz a).2.map p.mem).takeWhile (· ≠ 0)

/-- The loop of `sys_exec` over the pointers. -/
def argvLoop (uargv : UInt32) (i : ℕ) : Option (List UInt32) :=
  if MAXARG ≤ i then none
  else match fetchint p (uargv + 4 * UInt32.ofNat i) with
  | ⟨ret, uarg, _⟩ =>
    if ret < 0 then none
    else match uarg with
    | none => none
    | some uarg =>
      if uarg = 0 then some []
      else if (fetchstr p uarg).ret < 0 then none
      else (argvLoop uargv (i + 1)).map fun argv => uarg :: argv
termination_by MAXARG - i

/-- The path and the pointers for `exec`. -/
def execArgs : Option (UInt32 × List UInt32) :=
  match argstr p 0, argint p 1 with
  | ⟨ret, path, _⟩, ⟨ret', uargv, _⟩ =>
    if ret < 0 ∨ ret' < 0 then none
    else match path, uargv with
    | some path, some uargv => (argvLoop p uargv 0).map fun argv => (path, argv)
    | _, _ => none

end SyscallArguments

open SyscallArguments

/-- All pages below the size of the process are present. -/
def VirtualMemory.Kernel.Present (k : VirtualMemory.Kernel) (cur : Fin NPROC) : Prop :=
  ∀ a < (k.machine.proc cur).sz.toNat, ((k.machine.space cur).byteAt a).isSome

/-- The process as the functions that fetch arguments see it. They read nothing from `sz` on. -/
def VirtualMemory.Kernel.caller (k : VirtualMemory.Kernel) (cur : Fin NPROC)
    (present : k.Present cur) :
    SyscallArguments.Proc where
  sz := (k.machine.proc cur).sz
  esp := (k.machine.proc cur).tf.esp
  mem a :=
    if h : a.toNat < (k.machine.proc cur).sz.toNat then
      ((k.machine.space cur).byteAt a.toNat).get (present a.toNat h)
    else 0

def VirtualMemory.Kernel.sysExec (endFrame : ℕ) (data : UInt32) (k : VirtualMemory.Kernel)
    (cur : Fin NPROC) (present : k.Present cur) : Except Panic (ℤ × VirtualMemory.Kernel) :=
  let p := k.caller cur present
  match execArgs p with
  | none => .ok (-1, k)
  | some (path, argv) => k.exec endFrame data cur (p.string path) (argv.map p.string)

namespace SyscallArguments

/-- A string of C in the memory of the process. -/
def Proc.Holds (p : Proc) : UInt32 → List UInt8 → Prop
  | a, [] => a < p.sz ∧ p.mem a = 0
  | a, c :: cs => a < p.sz ∧ p.mem a = c ∧ c ≠ 0 ∧ p.Holds (a + 1) cs

/-- An array of pointers to strings, which ends with a null pointer. -/
def Proc.Vector (p : Proc) : UInt32 → List (List UInt8) → Prop
  | a, [] => p.Below a 4 ∧ p.word a = 0
  | a, s :: ss => p.Below a 4 ∧ p.word a ≠ 0 ∧ p.Holds (p.word a) s ∧ p.Vector (a + 4) ss

/-- The memory of the process holds the arguments of `exec`. -/
structure Proc.Passes (p : Proc) (path : List UInt8) (argv : List (List UInt8)) : Prop where
  first : p.Below (p.esp + 4 + 4 * 0) 4
  string : p.Holds (p.word (p.esp + 4 + 4 * 0)) path
  second : p.Below (p.esp + 4 + 4 * 1) 4
  vector : p.Vector (p.word (p.esp + 4 + 4 * 1)) argv
  short : argv.length < MAXARG

variable {p : Proc} {a uargv : UInt32} {s path : List UInt8} {ss argv : List (List UInt8)}
  {as : List UInt32} {i : ℕ}

theorem Proc.Holds.terminated (h : p.Holds a s) : p.Terminated a := by
  induction s generalizing a with
  | nil =>
      refine ⟨0, fun k hk => ?_, ?_⟩
      · have hlt := UInt32.lt_iff_toNat_lt.mp h.1
        omega
      · change p.mem (a + 0) = 0
        rw [UInt32.add_zero]
        exact h.2
  | cons c cs ih =>
      obtain ⟨hlt, -, -, hrest⟩ := h
      obtain ⟨k, hbelow, hzero⟩ := ih hrest
      have hsucc := toNat_succ_of_lt hlt
      refine ⟨k + 1, fun j hj => ?_, ?_⟩
      · cases j with
        | zero => exact UInt32.lt_iff_toNat_lt.mp hlt
        | succ j =>
            have hj' := hbelow j (by omega)
            omega
      · rw [UInt32.ofNat_add, UInt32.add_comm (UInt32.ofNat k), ← UInt32.add_assoc]
        exact hzero

theorem Proc.Holds.string (h : p.Holds a s) : p.string a = s := by
  induction s generalizing a with
  | nil =>
      rw [Proc.string, scan, if_pos h.1, if_pos h.2]
      simp [h.2]
  | cons c cs ih =>
      obtain ⟨hlt, hc, hne, hrest⟩ := h
      have hih := ih hrest
      rw [Proc.string] at hih ⊢
      rw [scan, if_pos hlt, if_neg (hc ▸ hne)]
      dsimp only
      rw [List.map_cons, List.takeWhile_cons, hih, hc, if_pos (by simpa using hne)]

theorem holds_string (h : p.Terminated a) : p.Holds a (p.string a) := by
  obtain ⟨k, hbelow, hzero⟩ := h
  induction k generalizing a with
  | zero =>
      have hlt : a < p.sz := UInt32.lt_iff_toNat_lt.mpr (hbelow 0 (Nat.succ_pos 0))
      change p.mem (a + 0) = 0 at hzero
      rw [UInt32.add_zero] at hzero
      have hempty : p.Holds a [] := ⟨hlt, hzero⟩
      rwa [hempty.string]
  | succ k ih =>
      have hlt : a < p.sz := UInt32.lt_iff_toNat_lt.mpr (hbelow 0 (Nat.succ_pos _))
      by_cases hfirst : p.mem a = 0
      · have hempty : p.Holds a [] := ⟨hlt, hfirst⟩
        rwa [hempty.string]
      · have hsucc := toNat_succ_of_lt hlt
        have hrest : p.Holds (a + 1) (p.string (a + 1)) := by
          refine ih (fun j hj => ?_) ?_
          · have hj' := hbelow (j + 1) (by omega)
            omega
          · rw [UInt32.ofNat_add, UInt32.add_comm (UInt32.ofNat k), ← UInt32.add_assoc] at hzero
            exact hzero
        have hcons : p.Holds a (p.mem a :: p.string (a + 1)) := ⟨hlt, rfl, hfirst, hrest⟩
        rwa [hcons.string]

theorem next_pointer : uargv + 4 * UInt32.ofNat (i + 1) = uargv + 4 * UInt32.ofNat i + 4 := by
  rw [UInt32.ofNat_add, UInt32.mul_add, ← UInt32.add_assoc]
  rfl

/-- The loop succeeds exactly on arrays of pointers to strings, and finds the strings. -/
theorem argvLoop_iff (hsz : p.sz < KERNBASE) : ∀ (n i : ℕ), MAXARG ≤ n + i →
    (∀ ss, p.Vector (uargv + 4 * UInt32.ofNat i) ss → i + ss.length < MAXARG →
      ∃ as, argvLoop p uargv i = some as ∧ as.map p.string = ss) ∧
    ∀ as, argvLoop p uargv i = some as →
      p.Vector (uargv + 4 * UInt32.ofNat i) (as.map p.string) ∧ i + as.length < MAXARG := by
  intro n
  induction n with
  | zero =>
      intro i hi
      rw [argvLoop, if_pos (by omega)]
      refine ⟨fun ss _ hlt => by omega, fun as has => ?_⟩
      cases has
  | succ n ih =>
      intro i hi
      obtain ⟨hnext, hback⟩ := ih (i + 1) (by omega)
      rw [argvLoop]
      by_cases hmax : MAXARG ≤ i
      · rw [if_pos hmax]
        refine ⟨fun ss _ hlt => by omega, fun as has => ?_⟩
        cases has
      · rw [if_neg hmax]
        obtain ⟨hsucceeds, hstored, -⟩ := @fetchint_checks p (uargv + 4 * UInt32.ofNat i) hsz
        cases hf : fetchint p (uargv + 4 * UInt32.ofNat i) with
        | mk ret uarg reads =>
          rw [hf] at hsucceeds hstored
          dsimp only at hsucceeds hstored ⊢
          by_cases hret : ret < 0
          · rw [if_pos hret]
            refine ⟨fun ss hss _ => ?_, fun as has => by cases has⟩
            have hbelow : p.Below (uargv + 4 * UInt32.ofNat i) 4 := by
              cases ss with
              | nil => exact hss.1
              | cons s ss => exact hss.1
            exact absurd hret (Int32.not_lt.mpr (hsucceeds.mpr hbelow))
          · have hbelow := hsucceeds.mp (Int32.not_lt.mp hret)
            rw [if_neg hret, hstored (Int32.not_lt.mp hret)]
            dsimp only
            by_cases hnull : p.word (uargv + 4 * UInt32.ofNat i) = 0
            · rw [if_pos hnull]
              refine ⟨fun ss hss _ => ?_, fun as has => ?_⟩
              · cases ss with
                | nil => exact ⟨[], rfl, rfl⟩
                | cons s ss => exact absurd hnull hss.2.1
              · cases has
                exact ⟨⟨hbelow, hnull⟩, by simpa using hmax⟩
            · have hstring :=
                (@fetchstr_checks p (p.word (uargv + 4 * UInt32.ofNat i)) hsz).succeeds
              rw [if_neg hnull]
              by_cases hbad : (fetchstr p (p.word (uargv + 4 * UInt32.ofNat i))).ret < 0
              · rw [if_pos hbad]
                refine ⟨fun ss hss _ => ?_, fun as has => by cases has⟩
                cases ss with
                | nil => exact absurd hss.2 hnull
                | cons s ss =>
                    exact absurd hbad (Int32.not_lt.mpr (hstring.mpr hss.2.2.1.terminated))
              · rw [if_neg hbad]
                refine ⟨fun ss hss hlt => ?_, fun as has => ?_⟩
                · cases ss with
                  | nil => exact absurd hss.2 hnull
                  | cons s ss =>
                      obtain ⟨-, -, hs, hss⟩ := hss
                      rw [List.length_cons] at hlt
                      obtain ⟨as, has, hmap⟩ := hnext ss (next_pointer ▸ hss) (by omega)
                      refine ⟨_ :: as, by rw [has]; rfl, ?_⟩
                      rw [List.map_cons, hs.string, hmap]
                · obtain ⟨as', has', rfl⟩ := Option.map_eq_some_iff.mp has
                  obtain ⟨hvector, hlt⟩ := hback as' has'
                  rw [next_pointer] at hvector
                  refine ⟨⟨hbelow, hnull, holds_string (hstring.mp (Int32.not_lt.mp hbad)),
                    hvector⟩, ?_⟩
                  rw [List.length_cons]
                  omega

/-- `sys_exec` finds the path and the strings exactly where the memory holds them. -/
theorem execArgs_iff (hsz : p.sz < KERNBASE) :
    (∀ path argv, p.Passes path argv →
      ∃ a as, execArgs p = some (a, as) ∧ p.string a = path ∧ as.map p.string = argv) ∧
    ∀ a as, execArgs p = some (a, as) → p.Passes (p.string a) (as.map p.string) := by
  obtain ⟨hpath, hstart, -⟩ := @argstr_checks p 0 hsz
  obtain ⟨hsecond, huargv, -⟩ := @fetchint_checks p (p.esp + 4 + 4 * 1) hsz
  have hloop := fun uargv => @argvLoop_iff p uargv hsz MAXARG 0 le_rfl
  have hzero : ∀ x : UInt32, x + 4 * UInt32.ofNat 0 = x := fun x => UInt32.add_zero x
  rw [execArgs]
  cases hf : argstr p 0 with
  | mk ret path reads =>
    rw [hf] at hpath hstart
    dsimp only at hpath hstart
    cases hg : argint p 1 with
    | mk ret' uargv reads' =>
      have hg' : fetchint p (p.esp + 4 + 4 * 1) = ⟨ret', uargv, reads'⟩ := hg
      rw [hg'] at hsecond huargv
      dsimp only at hsecond huargv ⊢
      by_cases hbad : ret < 0 ∨ ret' < 0
      · rw [if_pos hbad]
        refine ⟨fun path argv h => ?_, fun a as has => by cases has⟩
        rcases hbad with hbad | hbad
        · exact absurd hbad (Int32.not_lt.mpr (hpath.mpr ⟨h.first, h.string.terminated⟩))
        · exact absurd hbad (Int32.not_lt.mpr (hsecond.mpr h.second))
      · rw [not_or, Int32.not_lt, Int32.not_lt] at hbad
        rw [if_neg (by rw [not_or, Int32.not_lt, Int32.not_lt]; exact hbad), hstart hbad.1,
          huargv hbad.2]
        dsimp only
        obtain ⟨hfirst, hstring⟩ := hpath.mp hbad.1
        obtain ⟨hcomplete, hsound⟩ := hloop (p.word (p.esp + 4 + 4 * 1))
        rw [hzero] at hcomplete hsound
        refine ⟨fun path argv h => ?_, fun a as has => ?_⟩
        · obtain ⟨as, has, hmap⟩ := hcomplete argv h.vector (by rw [Nat.zero_add]; exact h.short)
          exact ⟨_, as, by rw [has]; rfl, h.string.string, hmap⟩
        · obtain ⟨as', has', heq⟩ := Option.map_eq_some_iff.mp has
          obtain ⟨rfl, rfl⟩ := Prod.mk.injEq _ _ _ _ ▸ heq
          obtain ⟨hvector, hshort⟩ := hsound as' has'
          refine ⟨hfirst, holds_string hstring, hsecond.mp hbad.2, hvector, ?_⟩
          rw [List.length_map]
          omega

end SyscallArguments

section Exec

variable {κ : Type*} [DecidableEq κ] {endFrame : ℕ} {others : κ → ℕ}
  {k : VirtualMemory.Kernel} {cur : Fin NPROC} {data : UInt32}

/-- Where the memory of a process holds a path and fewer than `MAXARG` strings as a program of C
passes them, the program that `exec` starts finds these strings on its stack, and `main` gets their
number and the array of pointers to them. Where it does not, the call fails and does nothing. -/
theorem sys_exec_passes (h : Runnable endFrame others k cur ([] : List (List UInt8)))
    (hdata : Linked data)
    (hsz : (k.machine.proc cur).sz < KERNBASE) (present : k.Present cur) :
    (∀ path argv, (k.caller cur present).Passes path argv →
      k.sysExec endFrame data cur present = k.exec endFrame data cur path argv ∧
        (argsSize argv ≤ PGSIZE → ∃ r t, k.sysExec endFrame data cur present = .ok (r, t) ∧
          ((r = -1 ∧ Restored k t) ∨ (r = 0 ∧
            Started argv (t.machine.proc cur).sz (t.machine.proc cur).tf.esp
            (t.machine.space cur))))) ∧
    ((∀ path argv, ¬ (k.caller cur present).Passes path argv) →
      k.sysExec endFrame data cur present = .ok (-1, k)) := by
  obtain ⟨hcomplete, hsound⟩ := @execArgs_iff (k.caller cur present) hsz
  refine ⟨fun path argv hpass => ?_, fun hnone => ?_⟩
  · obtain ⟨a, as, hargs, hpath, hargv⟩ := hcomplete path argv hpass
    have hexec : k.sysExec endFrame data cur present = k.exec endFrame data cur path argv := by
      unfold VirtualMemory.Kernel.sysExec
      dsimp only
      rw [hargs]
      dsimp only
      rw [hpath, hargv]
    refine ⟨hexec, fun hfits => ?_⟩
    have hrunnable : Runnable endFrame others k cur argv := ⟨h.inv, h.dir, h.small, h.kstack, hfits⟩
    obtain ⟨r, t, hrun, hcases⟩ := exec_outcome hrunnable hdata path
    refine ⟨r, t, hexec.trans hrun, hcases.imp_right ?_⟩
    rintro ⟨hr, -, hstarted⟩
    exact ⟨hr, hstarted⟩
  · unfold VirtualMemory.Kernel.sysExec
    dsimp only
    cases hargs : execArgs (k.caller cur present) with
    | none => rfl
    | some found =>
        obtain ⟨a, as⟩ := found
        exact absurd (hsound a as hargs) (hnone _ _)

end Exec

/-- The stack at 16, the array at 28, the path at 40 and the string at 44. -/
def callPage (i : ℕ) : UInt8 :=
  match i with
  | 20 => 40
  | 24 => 28
  | 28 => 44
  | 40 => 47
  | 41 => 97
  | 44 => 97
  | _ => 0

def callKernel : VirtualMemory.Kernel :=
  { VirtualMemory.oneKernel with
    machine := { VirtualMemory.oneProcess with
      proc := fun k => { VirtualMemory.oneProcess.proc k with tf := ⟨0, 0, 16, []⟩ }
      page := fun _ => callPage } }

theorem callKernel_runnable :
    Runnable 1 VirtualMemory.beyond callKernel VirtualMemory.initSlot ([] : List (List UInt8)) := by
  have hinv := VirtualMemory.roomy_inv
  refine ⟨⟨hinv.nodup, hinv.lt, hinv.owns, hinv.user,
    hinv.table⟩, by decide, fun d hd => ?_, by decide,
    by decide⟩
  exact if_neg (Nat.ne_of_gt (Nat.lt_of_lt_of_le (by decide) hd))

theorem callKernel_present : callKernel.Present VirtualMemory.initSlot := by
  intro a ha
  have hpage : a / VirtualMemory.PGSIZE = 0 := Nat.div_eq_of_lt ha
  have hpte : (callKernel.machine.space VirtualMemory.initSlot).pte (VirtualMemory.PGSIZE * 0) =
      some ⟨1, VirtualMemory.userPerm⟩ := VirtualMemory.onePage_pte 0
  rw [VirtualMemory.Space.byteAt, VirtualMemory.pte_page, hpage, hpte]
  rfl

/-- The process that calls. -/
def callingProc : SyscallArguments.Proc :=
  callKernel.caller VirtualMemory.initSlot callKernel_present

theorem callingProc_passes : callingProc.Passes [47, 97] [[97]] := by
  have hbelow : ∀ a : UInt32, a.toNat + 4 ≤ 4096 → callingProc.Below a 4 :=
    fun a ha => (below_iff (by decide)).mpr ha
  have hpath : callingProc.word 20 = 40 := by decide +kernel
  have hargv : callingProc.word 24 = 28 := by decide +kernel
  have hfirst : callingProc.word 28 = 44 := by decide +kernel
  have hnull : callingProc.word 32 = 0 := by decide +kernel
  refine ⟨hbelow 20 (by decide), ?_, hbelow 24 (by decide), ?_, by decide⟩
  · change callingProc.Holds (callingProc.word 20) [47, 97]
    rw [hpath]
    exact ⟨by decide, by decide +kernel, by decide, by decide, by decide +kernel, by decide,
      by decide,
      by decide +kernel⟩
  · change callingProc.Vector (callingProc.word 24) [[97]]
    rw [hargv]
    refine ⟨hbelow 28 (by decide), ?_, ?_, hbelow 32 (by decide), hnull⟩
    · rw [hfirst]
      decide
    · rw [hfirst]
      exact ⟨by decide, by decide +kernel, by decide, by decide, by decide +kernel⟩

theorem callKernel_exec :
    ∃ t, callKernel.exec 1 0x80108000 VirtualMemory.initSlot [47, 97] [[97]] = .ok (0, t) := by
  have h := callKernel_runnable
  have hrunnable : Runnable 1 VirtualMemory.beyond callKernel VirtualMemory.initSlot [[97]] :=
    ⟨h.inv, h.dir, h.small, h.kstack, by decide⟩
  refine VirtualMemory.elfFile_runs hrunnable VirtualMemory.oneLinked rfl rfl (by decide) ?_
  change 68 < (List.range' 4 200).length
  rw [List.length_range']
  decide

theorem sys_exec_passes_one_string :
    ∃ t, callKernel.sysExec 1 0x80108000 VirtualMemory.initSlot callKernel_present = .ok (0, t) ∧
      Started [[97]] (t.machine.proc VirtualMemory.initSlot).sz
        (t.machine.proc VirtualMemory.initSlot).tf.esp
        (t.machine.space VirtualMemory.initSlot) := by
  obtain ⟨heq, hstarted⟩ :=
    (sys_exec_passes callKernel_runnable VirtualMemory.oneLinked (by decide) callKernel_present).1
      [47, 97] [[97]] callingProc_passes
  obtain ⟨r, t, hrun, hcases⟩ := hstarted (by decide)
  obtain ⟨u, hu⟩ := callKernel_exec
  rw [← heq, hrun] at hu
  cases hu
  rcases hcases with ⟨hr, -⟩ | ⟨-, hstarted⟩
  · cases hr
  · exact ⟨t, hrun, hstarted⟩

end Xv6Fairness
