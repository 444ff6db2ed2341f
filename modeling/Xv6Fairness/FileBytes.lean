import Xv6Fairness.FileCalls

/-!
# Files as arrays of bytes

`readi` and `writei` on regular files do to the blocks what reading and overwriting do to arrays of
bytes, with the same answers.
-/

namespace Xv6Fairness

open ByteBlocks Outcomes

namespace FileBlocks

def T_FILE : Int16 := 2

/-- A file that `bytes` is written into at `off`. -/
def overwrite (f : List UInt8) (off : ℕ) (bytes : List UInt8) : List UInt8 :=
  f.take off ++ bytes ++ f.drop (off + bytes.length)

variable (L : Layout) (devsw : Devsw)

inductive FileCall (L : Layout)
  | write (i : Fin L.ninodes) (src : ℕ → UInt8) (off n : UInt32)
  | read (i : Fin L.ninodes) (off n : UInt32)

variable {L} in
def FileCall.inum : FileCall L → Fin L.ninodes
  | .write i _ _ _ => i
  | .read i _ _ => i

variable {L} in
def FileCall.call : FileCall L → Call L
  | .write i src off n => .writei i src off n
  | .read i off n => .readi i off n

abbrev Files (L : Layout) := Fin L.ninodes → List UInt8

variable {L} in
/-- What a call does to the arrays. -/
def Files.step (files : Files L) : FileCall L → Answer × Files L
  | .write i src off n =>
    if off.toNat ≤ (files i).length ∧ off.toNat + n.toNat ≤ MAXFILE * BSIZE then
      ((n.toNat, []), Function.update files i
        (overwrite (files i) off.toNat ((List.range n.toNat).map src)))
    else ((-1, []), files)
  | .read i off n =>
    if off.toNat ≤ (files i).length ∧ off.toNat + n.toNat < 2 ^ 32 then
      let bytes := ((files i).drop off.toNat).take n.toNat
      ((bytes.length, bytes), files)
    else ((-1, []), files)

variable {L} in
def Files.run (files : Files L) : List (FileCall L) → List Answer × Files L
  | [] => ([], files)
  | call :: calls =>
    let (answer, files) := files.step call
    let (answers, files) := Files.run files calls
    (answer :: answers, files)

/-- The bytes of the allocated inodes. -/
def contents (s : State) : Files L := fun i =>
  if (L.dinode s.disk i).type = 0 then [] else file L s.disk i

section Refinement

variable {L devsw} {disk disk' : Disk} {s t : State} {ip : Dinode} {i j : ℕ} {src : ℕ → UInt8}
  {off n : UInt32}

theorem overwrite_getElem? {f bytes : List UInt8} {o : ℕ} (ho : o ≤ f.length) (k : ℕ) :
    (overwrite f o bytes)[k]? =
      if k < o then f[k]? else if k < o + bytes.length then bytes[k - o]? else f[k]? := by
  have hlen : (f.take o).length = o := by rw [List.length_take, min_eq_left ho]
  rw [overwrite, List.append_assoc]
  split_ifs with hlo hhi
  · rw [List.getElem?_append_left (by rwa [hlen]), List.getElem?_take_of_lt hlo]
  · rw [List.getElem?_append_right (by rw [hlen]; omega), hlen,
      List.getElem?_append_left (by omega)]
  · rw [List.getElem?_append_right (by rw [hlen]; omega), hlen,
      List.getElem?_append_right (by omega), List.getElem?_drop]
    congr 1
    omega

theorem file_getElem? (k : ℕ) : (file L disk i)[k]? =
    if k < (L.dinode disk i).size.toNat then some (fileByte L (L.dinode disk) disk i k)
    else none := by
  rw [file, List.getElem?_map]
  split_ifs with hk
  · rw [List.getElem?_range hk, Option.map_some]
  · rw [List.getElem?_eq_none (by rw [List.length_range]; omega), Option.map_none]

theorem Overwritten.file_self (h : Overwritten L disk i src off n ip disk')
    (hi : Allocated L (L.dinode disk) i) (hoff : off.toNat ≤ (L.dinode disk i).size.toNat) :
    file L disk' i = overwrite (file L disk i) off.toNat ((List.range n.toNat).map src) := by
  have hsize : (L.dinode disk' i).size.toNat =
      max (L.dinode disk i).size.toNat (off.toNat + n.toNat) := by
    rw [h.dinode i hi.1, if_pos rfl, h.size]
  apply List.ext_getElem?
  intro k
  rw [overwrite_getElem? (by rwa [file_length]), List.length_map, List.length_range, file_getElem?,
    file_getElem?, hsize]
  by_cases hlo : k < off.toNat
  · have hk : k < (L.dinode disk i).size.toNat := hlo.trans_le hoff
    rw [if_pos hlo, if_pos hk, if_pos (lt_max_of_lt_left hk),
      h.kept i hi k hk fun hin => absurd hlo (not_lt.mpr hin.2.1)]
  rw [if_neg hlo]
  by_cases hhi : k < off.toNat + n.toNat
  · have hin : k - off.toNat < n.toNat := by omega
    rw [if_pos hhi, if_pos (lt_max_of_lt_right hhi), h.written k (not_lt.mp hlo) hhi,
      List.getElem?_map, List.getElem?_range hin, Option.map_some]
  rw [if_neg hhi]
  by_cases hk : k < (L.dinode disk i).size.toNat
  · rw [if_pos hk, if_pos (lt_max_of_lt_left hk), h.kept i hi k hk fun hin => hhi hin.2.2]
  · rw [if_neg hk, if_neg (not_lt.mpr (max_le (not_lt.mp hk) (not_lt.mp hhi)))]

theorem Overwritten.file_of_ne (h : Overwritten L disk i src off n ip disk')
    (hj : Allocated L (L.dinode disk) j) (hji : j ≠ i) : file L disk' j = file L disk j := by
  have hdinode : L.dinode disk' j = L.dinode disk j := by rw [h.dinode j hj.1, if_neg hji]
  rw [file, file, hdinode]
  apply List.map_congr_left
  intro k hk
  exact h.kept j hj k (List.mem_range.mp hk) fun hin => hji hin.1

theorem Overwritten.type (h : Overwritten L disk i src off n ip disk') (hj : j < L.ninodes) :
    (L.dinode disk' j).type = (L.dinode disk j).type := by
  rw [h.dinode j hj]
  split_ifs with hji
  · rw [h.fields, hji]
  · rfl

theorem contents_of_ne_zero {k : Fin L.ninodes} (hk : (L.dinode s.disk k).type ≠ 0) :
    contents L s k = file L s.disk k :=
  if_neg hk

theorem Overwritten.contents {k : Fin L.ninodes} (h : Overwritten L s.disk k src off n ip t.disk)
    (hk : Allocated L (L.dinode s.disk) k) (hoff : off.toNat ≤ (L.dinode s.disk k).size.toNat) :
    contents L t = Function.update (contents L s) k
      (overwrite (contents L s k) off.toNat ((List.range n.toNat).map src)) := by
  funext l
  have htype : (L.dinode t.disk l).type = (L.dinode s.disk l).type := h.type l.isLt
  by_cases hl : l = k
  · subst hl
    rw [Function.update_self, contents_of_ne_zero hk.2, contents_of_ne_zero (htype.symm ▸ hk.2)]
    exact h.file_self hk hoff
  · rw [Function.update_of_ne hl, FileBlocks.contents, FileBlocks.contents, htype]
    split_ifs with hfree
    · rfl
    · exact h.file_of_ne ⟨l.isLt, hfree⟩ fun hlk => hl (Fin.ext hlk)

theorem ilock_of_allocated (h : Inv L s) (hi : Allocated L (L.dinode s.disk) i) :
    ilock L s i = .ok (L.dinode s.disk i) := by
  rw [ilock]
  cases hcache : s.icache i with
  | some ip => rw [(h.cached i hi.1 ip hcache).1]
  | none => exact if_neg hi.2

theorem regular {k : Fin L.ninodes} (hk : (L.dinode s.disk k).type = T_FILE) :
    Allocated L (L.dinode s.disk) k ∧ (L.dinode s.disk k).type ≠ T_DEV := by
  rw [Allocated, hk]
  exact ⟨⟨k.isLt, by decide⟩, by decide⟩

theorem not_refused_iff :
    ¬ Refused ip off n ↔ off.toNat ≤ ip.size.toNat ∧ off.toNat + n.toNat ≤ MAXFILE * BSIZE := by
  rw [Refused, not_or, not_lt, not_lt]

theorem readable_iff : ¬ (off > ip.size ∨ off + n < off) ↔
    off.toNat ≤ ip.size.toNat ∧ off.toNat + n.toNat < 2 ^ 32 := by
  have hoff := off.toNat_lt
  have hn := n.toNat_lt
  rw [not_or, gt_iff_lt, UInt32.lt_iff_toNat_lt, UInt32.lt_iff_toNat_lt, UInt32.toNat_add]
  omega

/-- A call does to the blocks what it does to the arrays. -/
structure Simulated (L : Layout) (s : State) (call : FileCall L) (r : Answer × State) : Prop where
  inv : Inv L r.2
  step : (contents L s).step call = (r.1, contents L r.2)
  type : ∀ j < L.ninodes, (L.dinode r.2.disk j).type = (L.dinode s.disk j).type

theorem Simulated.of_unchanged {call : FileCall L} {answer : Answer} {k : Fin L.ninodes}
    (h : Inv L s)
    (hk : Allocated L (L.dinode s.disk) k)
    (hstep : (contents L s).step call = (answer, contents L s)) :
    Simulated L s call (answer, s.iunlock k (L.dinode s.disk k) s.disk) :=
  ⟨h.iunlock h.consistent ⟨rfl, hk.2⟩ fun _ _ _ => rfl, hstep, fun _ _ => rfl⟩

theorem contents_length {k : Fin L.ninodes} (hk : (L.dinode s.disk k).type ≠ 0) :
    (contents L s k).length = (L.dinode s.disk k).size.toNat := by
  rw [contents_of_ne_zero hk, file_length]

theorem write_spec {k : Fin L.ninodes} (h : Inv L s) (hk : (L.dinode s.disk k).type = T_FILE) :
    Ends (· = .outOfBlocks) (step L devsw s (.writei k src off n))
      (Simulated L s (.write k src off n)) := by
  obtain ⟨hi, hdev⟩ := regular hk
  change Ends _ (ilock L s k >>= _) _
  rw [ilock_of_allocated h hi, ok_bind]
  apply (writei_spec h.consistent hi hdev).bind
  rintro ⟨r, ip, d⟩ (⟨hrefused, heq⟩ | ⟨hnot, hr, hover⟩)
  · cases heq
    apply Ends.ok
    refine .of_unchanged h hi ?_
    rw [Files.step, contents_length hi.2, if_neg fun h => not_refused_iff.mpr h hrefused]
  · replace hr : r = n.toNat := hr
    replace hover : Overwritten L s.disk k src off n ip (s.iunlock k ip d).disk := hover
    obtain ⟨hoff, -⟩ := not_refused_iff.mp hnot
    have htype : ip.type ≠ 0 := by
      rw [hover.fields]
      exact hi.2
    refine .ok ⟨h.iunlock hover.consistent ⟨?_, htype⟩ fun j hj hjk => ?_, ?_, fun j hj =>
      hover.type hj⟩
    · exact (hover.dinode k k.isLt).trans (if_pos rfl)
    · exact (hover.dinode j hj).trans (if_neg hjk)
    · rw [Files.step, contents_length hi.2, if_pos (not_refused_iff.mp hnot),
        hover.contents hi hoff, hr]

theorem read_spec {k : Fin L.ninodes} (h : Inv L s) (hk : (L.dinode s.disk k).type = T_FILE) :
    Ends (· = .outOfBlocks) (step L devsw s (.readi k off n)) (Simulated L s (.read k off n)) := by
  obtain ⟨hi, hdev⟩ := regular hk
  change Ends _ (ilock L s k >>= _) _
  rw [ilock_of_allocated h hi, ok_bind, readi_spec h.consistent hi hdev]
  apply Ends.ok
  refine .of_unchanged h hi ?_
  rw [Files.step, contents_length hi.2]
  by_cases hwrap : off > (L.dinode s.disk k).size ∨ off + n < off
  · rw [if_neg fun h => readable_iff.mpr h hwrap, if_pos hwrap]
  · rw [if_pos (readable_iff.mp hwrap), if_neg hwrap, contents_of_ne_zero hi.2]

theorem fileCall_spec (h : Inv L s) (call : FileCall L)
    (hregular : (L.dinode s.disk call.inum).type = T_FILE) :
    Ends (· = .outOfBlocks) (step L devsw s call.call) (Simulated L s call) := by
  cases call with
  | write k src off n => exact write_spec h hregular
  | read k off n => exact read_spec h hregular

/-- Regular files are arrays of bytes: unless it runs out of blocks, every sequence of reads and
writes on the blocks gives the answers that it gives on the arrays, and ends in the blocks of the
arrays that it ends in. -/
theorem files_are_arrays (devsw : Devsw) (h : Inv L s) (calls : List (FileCall L))
    (hregular : ∀ call ∈ calls, (L.dinode s.disk call.inum).type = T_FILE) :
    Ends (· = .outOfBlocks) (run L devsw s (calls.map FileCall.call)) fun r =>
      (contents L s).run calls = (r.1, contents L r.2) := by
  induction calls generalizing s with
  | nil => exact .ok rfl
  | cons call calls ih =>
      apply (fileCall_spec h call (hregular call List.mem_cons_self)).bind
      rintro ⟨answer, t⟩ ht
      have hrest : ∀ call ∈ calls, (L.dinode t.disk call.inum).type = T_FILE := fun c hc =>
        (ht.type _ c.inum.isLt).trans (hregular c (List.mem_cons_of_mem _ hc))
      apply (ih ht.inv hrest).bind
      rintro ⟨answers, u⟩ hu
      apply Ends.ok
      rw [Files.run, ht.step]
      exact congrArg (fun r => (answer :: r.1, r.2)) hu

def secondInode : Fin mkfsLayout.ninodes := ⟨2, by decide⟩

/-- Two files are written in turn, one of them over the end of its first block, and a write behind
the end is refused. -/
def twoFiles : List (FileCall mkfsLayout) :=
  [.write firstInode (fun k => UInt8.ofNat k) 0 600, .write secondInode (fun _ => 9) 0 3,
    .write firstInode (fun _ => 7) 510 4, .write secondInode (fun _ => 9) 5 1,
    .read firstInode 508 8, .read secondInode 1 10]

theorem files_are_arrays_two_files :
    ∃ s r, run mkfsLayout ⟨fun _ => none, fun _ => none⟩ s (twoFiles.map FileCall.call) = .ok r ∧
      r.1 = [(600, []), (3, []), (4, []), (-1, []), (8, [252, 253, 7, 7, 7, 7, 2, 3]),
        (2, [9, 9])] ∧
        (contents mkfsLayout s).run twoFiles = (r.1, contents mkfsLayout r.2) := by
  have hmade : ((run mkfsLayout ⟨fun _ => none, fun _ => none⟩ newState
      [.ialloc T_FILE, .ialloc T_FILE]).toOption.any fun q =>
        (∀ call ∈ twoFiles, (mkfsLayout.dinode q.2.disk call.inum).type = T_FILE) ∧
          (run mkfsLayout ⟨fun _ => none, fun _ => none⟩ q.2
            (twoFiles.map FileCall.call)).toOption.map Prod.fst =
              some [(600, []), (3, []), (4, []), (-1, []), (8, [252, 253, 7, 7, 7, 7, 2, 3]),
                (2, [9, 9])]) = true := by
    decide +kernel
  obtain ⟨q, hq, hfacts⟩ := (Option.any_eq_true _ _).mp hmade
  obtain ⟨hregular, hanswers⟩ := of_decide_eq_true hfacts
  obtain ⟨r, hr, hfirst⟩ := Option.map_eq_some_iff.mp hanswers
  have hinv : Inv mkfsLayout q.2 := (run_spec newState_inv _).of_ok (ok_of_toOption hq)
  have hrun := ok_of_toOption hr
  exact ⟨q.2, r, hrun, hfirst, (files_are_arrays _ hinv twoFiles hregular).of_ok hrun⟩

end Refinement

end FileBlocks

end Xv6Fairness
