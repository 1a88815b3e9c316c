import ShiziOS.Fs.Mount
import ShiziOS.Fs.Rules
import ShiziOS.Fs.Vfs
import ShiziOS.Lib.Spans

/-!
# Concurrent appends

Other tasks may run between the three parts of `vfs_write`: before the lock of the inode, under it,
and after it. Tasks, as many as there are, write to files that were opened with `O_APPEND` and lead
to one inode. The offset of each write is the size that it finds under the lock, and that is where
the write before it has ended. But the pages of a file overlap in memory, so that what was written
stays only as long as the file fits into one page.

* `writeLoop_page`: what the loop of `tmpfs_write` stores within the first page.
* `AppendStep.inv`: every part of a write keeps `AppendInv`.
* `appends_tile`: the spans are disjoint and tile the new part of the file, and within one page
  every write is read back.
* `appends_overlap`: behind the first page they are not.
-/

namespace ShiziOS.Fs

open Bytes Exec Spans Option Function

variable {env : Env} {s s' : Vfs} {p file : Ptr}

/-! ## The two sizes of a file -/

/-- `size` of the inode and `data_size` of tmpfs agree. -/
def FileData.Agree (f : FileData) : Prop := f.dataSize = f.size

theorem agree_extend {f : FileData} (h : f.Agree) (stop : Nat) : (f.extend stop).Agree := by
  rw [FileData.extend]
  split_ifs
  · rfl
  · exact h

theorem extend_size {f : FileData} {stop : Nat} (h : f.Agree) (hs : f.size ≤ stop) :
    (f.extend stop).size = stop := by
  rw [FileData.Agree] at h
  rw [FileData.extend]
  split_ifs with hlt
  · rfl
  · show f.size = stop
    omega

/-! ## What a write stores -/

/-- Byte `o` of a file, as `tmpfs_read` finds it. -/
def FileData.fileByte (f : FileData) (o : Nat) : Byte := f.byte (o / pageSize) (o % pageSize)

/-- The bytes of a write are read back from where it started. -/
def FileData.Holds (f : FileData) (w : Nat × List Byte) : Prop :=
  ∀ k < w.2.length, f.fileByte (w.1 + k) = w.2.getD k 0

theorem fileByte_of_lt {f : FileData} {o : Nat} (h : o < pageSize) : f.fileByte o = f.byte 0 o := by
  rw [FileData.fileByte, Nat.div_eq_of_lt h, Nat.mod_eq_of_lt h]

theorem writeLoop_nil (fuel : Nat) (d : DynArr) (offset : Nat) :
    writeLoop fuel d offset [] = some d := by
  cases fuel <;> rfl

/-- A write within the first page is one round of the loop. -/
theorem writeLoop_page {d d' : DynArr} {offset : Nat} {data : List Byte}
    (hfit : offset + data.length ≤ pageSize)
    (h : writeLoop data.length d offset data = some d') :
    d'.count = d.count ∧ (data ≠ [] → 0 < d.count) ∧ ∀ k, d'.arr k =
      if offset ≤ k ∧ k < offset + data.length then data.getD (k - offset) 0 else d.arr k := by
  cases data with
  | nil =>
    rw [writeLoop_nil] at h
    cases h
    refine ⟨rfl, (absurd rfl ·), fun k => (if_neg ?_).symm⟩
    rw [List.length_nil]
    omega
  | cons b data =>
    rw [List.length_cons] at hfit
    have hlt : offset < pageSize := by omega
    have hchunk : min (pageSize - offset) (data.length + 1) = data.length + 1 :=
      min_eq_right (by omega)
    rw [List.length_cons, writeLoop] at h
    simp only [Nat.div_eq_of_lt hlt, Nat.mod_eq_of_lt hlt, hchunk] at h
    split_ifs at h with hcount
    rw [List.drop_of_length_le (by rw [List.length_cons]), writeLoop_nil] at h
    cases h
    refine ⟨rfl, fun _ => by omega, fun k => ?_⟩
    dsimp only
    rw [Nat.mul_zero, Nat.zero_add, List.length_cons]

theorem pagesOf_eq_one {size : Nat} (h0 : 0 < size) (h : size ≤ pageSize) : pagesOf size = 1 := by
  rw [pageSize] at h
  rw [pagesOf, pageSize]
  omega

/-- What a write at the end of the file leaves, if the file stays within one page. -/
structure AppendsTo (f f' : FileData) (offset : Nat) (data : List Byte) : Prop where
  holds : f'.Holds (offset, data)
  kept : ∀ k < offset, f'.fileByte k = f.fileByte k

theorem appendsTo_of_pages {f f' : FileData} {d d' : DynArr} {data : List Byte}
    (hfit : f.dataSize + data.length ≤ pageSize) (hpages : f'.pages = some d')
    (hold : 0 < f.dataSize → f.pages = some d ∨ f.pages = none ∧ d.count = 0)
    (hloop : writeLoop data.length d f.dataSize data = some d') :
    AppendsTo f f' f.dataSize data := by
  obtain ⟨hcount, hpos, harr⟩ := writeLoop_page hfit hloop
  have hbyte : ∀ k < pageSize, f'.fileByte k = if 0 < d.count then d'.arr k else 0 := by
    intro k hk
    simp only [fileByte_of_lt hk, FileData.byte, hpages, hcount, Nat.mul_zero, Nat.zero_add]
  constructor
  · intro k hk
    dsimp only at hk ⊢
    have hne : data ≠ [] := List.ne_nil_of_length_pos (by omega)
    rw [hbyte _ (by omega), if_pos (hpos hne), harr, if_pos (by omega), Nat.add_sub_cancel_left]
  · intro k hk
    have harr' : d'.arr k = d.arr k := by rw [harr, if_neg (by omega)]
    rw [hbyte k (by omega), fileByte_of_lt (by omega), FileData.byte, harr']
    rcases hold (by omega) with hd | ⟨hd, hzero⟩
    · simp only [hd, Nat.mul_zero, Nat.zero_add]
    · simp only [hd, hzero, Nat.lt_irrefl, if_false]

theorem pagesFor_spec {f : FileData} {heap : Oracle} :
    Spec (pagesFor f) heap fun r _ => ∀ d, r = some d →
      f.pages = some d ∨ f.pages = none ∧ d.count = 0 := by
  rw [pagesFor]
  cases f.pages with
  | some d =>
    refine spec_pure fun d' h => ?_
    cases h
    exact .inl rfl
  | none =>
    apply spec_bind
    refine unless_none (fun _ _ => spec_pure nofun) ?_
    intro _ _ _
    apply spec_bind
    refine unless_none (fun _ _ => spec_pure nofun) ?_
    intro _ _ _
    refine spec_pure fun d' h => ?_
    cases h
    exact .inr ⟨rfl, rfl⟩

theorem tmpfsWrite_spec {sb : SuperBlock} {f : FileData} {offset : Nat} {data : List Byte}
    {heap : Oracle} :
    Spec (tmpfsWrite sb f offset data) heap fun r _ => ∀ n, r.1 = .ok n → n = data.length ∧
      (∃ pages, r.2.2 = FileData.extend { f with pages := pages } (offset + data.length)) ∧
      (f.dataSize = offset → offset + data.length ≤ pageSize →
        AppendsTo f r.2.2 offset data) := by
  rw [tmpfsWrite]
  cases (if pagesOf f.dataSize < pagesOf (offset + data.length) then
      tmpfsAllocPages sb (pagesOf (offset + data.length) - pagesOf f.dataSize) else some sb) with
  | none => exact spec_pure nofun
  | some sb' =>
    refine pagesFor_spec.bind ?_
    refine unless_none (fun _ _ => spec_pure nofun) ?_
    intro d heap1 hd
    apply spec_bind
    rintro ⟨done, d'⟩ heap2 happend
    cases done with
    | false => exact spec_pure nofun
    | true =>
      refine spec_bind (spec_ofOption fun d'' hloop => ?_)
      refine spec_pure fun n hn => ?_
      cases hn
      refine ⟨rfl, ⟨some d'', rfl⟩, ?_⟩
      rintro rfl hfit
      have hpages : (FileData.extend { f with pages := some d'' }
          (f.dataSize + data.length)).pages = some d'' := by
        rw [FileData.extend]
        split_ifs <;> rfl
      refine appendsTo_of_pages hfit hpages (fun hpos => ?_) hloop
      -- a page is there already, and no other is appended
      rw [pagesOf_eq_one hpos (by omega), pagesOf_eq_one (by omega) hfit, Nat.sub_self] at happend
      cases happend
      exact hd _ rfl

theorem inodeWrite_spec {offset : Nat} {data : List Byte} {i : Inode}
    (hi : s.inodes.get p = some i) :
    Spec (inodeWrite env p offset data) s fun r s' => s'.files = s.files ∧ s'.dentries =
      s.dentries ∧
      ∀ n, r = .ok n → n = data.length ∧ ∃ i', s'.inodes.get p = some i' ∧
        (∃ pages, i'.data = FileData.extend { i.data with pages := pages }
          (offset + data.length)) ∧
        (i.data.dataSize = offset → offset + data.length ≤ pageSize →
          AppendsTo i.data i'.data offset data) := by
  apply spec_inodeAt
  intro i1 hi1
  cases hi.symm.trans hi1
  apply spec_sbAt
  intro b _
  apply spec_bind
  apply spec_onHeap
  rintro ⟨ret, sb, data'⟩ heap hwrite
  have hspec := tmpfsWrite_spec _ _ hwrite
  apply spec_bind
  apply spec_setSb
  intro _ _
  apply spec_bind
  apply spec_setInode
  intro _ _
  cases ret with
  | error e => exact spec_pure ⟨rfl, rfl, nofun⟩
  | ok n =>
    obtain ⟨hn, hdata⟩ := hspec n rfl
    apply spec_bind
    apply spec_setInode
    intro _ _
    refine spec_pure ⟨rfl, rfl, ?_⟩
    intro n' hn'
    cases hn'
    refine ⟨hn, { { i with data := data' } with mtime := env.now }, ?_, hdata⟩
    rw [Store.get_modify_self, Store.get_modify_self, hi]
    rfl

/-! ## Tasks -/

/-- A file that was opened with `O_APPEND` and leads to the inode `p`. -/
def AppendFile (p : Ptr) (s : Vfs) (file : Ptr) : Prop :=
  ∃ f d, s.files.get file = some f ∧ Flags.has f.flags oAppend = true ∧
    s.dentries.get f.path.dentry = some d ∧ d.inode = some p

/-- Where a task is in `vfs_write`. -/
inductive WritePhase where
  | idle
  | begun (file : Ptr) (pos : Option Nat) (offset : Nat) (data : List Byte)
  | written (file : Ptr) (pos : Option Nat) (start n : Nat)

/-- The state of the system, the tasks and, in the order of the lock, the start and the bytes of
every write that was made. -/
structure Appends where
  vfs : Vfs
  phase : Nat → WritePhase
  log : List (Nat × List Byte)

/-- The spans of the writes. -/
def Appends.spans (c : Appends) : List (Nat × Nat) := c.log.map fun w => (w.1, w.2.length)

/-- A part of a write by one of the tasks. Every write succeeds. -/
inductive AppendStep (p : Ptr) : Appends → Appends → Prop
  | begin {c : Appends} {t : Nat} {file : Ptr} {pos : Option Nat} {offset : Nat} {data : List Byte}
      {s : Vfs}
      (ht : c.phase t = .idle) (hf : AppendFile p c.vfs file)
      (hrun : writeBegin file pos c.vfs = some (.ok offset, s)) :
      AppendStep p c ⟨s, update c.phase t (.begun file pos offset data), c.log⟩
  | write {c : Appends} {t : Nat} {env : Env} {file : Ptr} {pos : Option Nat} {offset start n : Nat}
      {data : List Byte} {s : Vfs} (ht : c.phase t = .begun file pos offset data)
      (hrun : writeLocked env file offset data c.vfs = some ((start, .ok n), s)) :
      AppendStep p c
        ⟨s, update c.phase t (.written file pos start n), c.log ++ [(start, data)]⟩
  | finish {c : Appends} {t : Nat} {file : Ptr} {pos : Option Nat} {start n : Nat} {s : Vfs}
      (ht : c.phase t = .written file pos start n)
      (hrun : writeEnd file pos (start + n) n c.vfs = some ((), s)) :
      AppendStep p c ⟨s, update c.phase t .idle, c.log⟩

/-- What holds between the parts: the writes made so far follow on each other from `lo` to the
end of the file, they are read back within the first page, and the files that are being written
are those of the inode. -/
structure AppendInv (p : Ptr) (lo : Nat) (c : Appends) : Prop where
  chain : ∃ i, c.vfs.inodes.get p = some i ∧ i.data.Agree ∧ Chain lo c.spans i.data.size ∧
    (i.data.size ≤ pageSize → ∀ w ∈ c.log, i.data.Holds w)
  begun : ∀ t file pos offset data, c.phase t = .begun file pos offset data →
    AppendFile p c.vfs file

theorem writeBegin_spec (pos : Option Nat) : Spec (writeBegin file pos) s fun _ s' => s' = s := by
  apply spec_fileAt
  intro f _
  split_ifs
  · exact spec_pure rfl
  · cases f.ops with
    | default => exact spec_pure rfl
    | driver => exact spec_stuck
    | tmpfs => exact spec_pure rfl

theorem writeBegin_eq {pos : Option Nat} {r : Except Errno Nat}
    (h : (writeBegin file pos s).map (·.1) = some r) : writeBegin file pos s = some (r, s) := by
  obtain ⟨⟨_, s'⟩, hs, rfl⟩ := map_eq_some_iff.mp h
  rw [hs, writeBegin_spec pos _ _ hs]

theorem writeLocked_spec {offset : Nat} {data : List Byte} {i : Inode} (hf : AppendFile p s file)
    (hi : s.inodes.get p = some i) (ha : i.data.Agree) :
    Spec (writeLocked env file offset data) s fun r s' => s'.files = s.files ∧ s'.dentries =
      s.dentries ∧
      ∀ start n, r = (start, .ok n) → start = i.data.size ∧
        ∃ i', s'.inodes.get p = some i' ∧ i'.data.Agree ∧ i'.data.size = start + data.length ∧
          (start + data.length ≤ pageSize → AppendsTo i.data i'.data start data) := by
  obtain ⟨f, d, hfile, hflag, hd, hp⟩ := hf
  apply spec_fileAt
  intro f1 hf1
  cases hfile.symm.trans hf1
  apply spec_dentryInode
  intro d1 q hd1 hq
  cases hd.symm.trans hd1
  cases hp.symm.trans hq
  apply spec_inodeAt
  intro i1 hi1
  cases hi.symm.trans hi1
  dsimp only
  rw [if_pos hflag]
  refine (inodeWrite_spec hi).bind ?_
  rintro ret s1 ⟨hfiles, hdentries, hok⟩
  refine spec_pure ⟨hfiles, hdentries, ?_⟩
  intro start n hr
  cases hr
  obtain ⟨-, i', hi', ⟨pages, hdata⟩, hbytes⟩ := hok n rfl
  have hagree : FileData.Agree { i.data with pages := pages } := ha
  refine ⟨rfl, i', hi', ?_, ?_, hbytes ha⟩
  · rw [hdata]
    exact agree_extend hagree _
  · rw [hdata]
    exact extend_size hagree (Nat.le_add_right _ _)

theorem writeEnd_spec (pos : Option Nat) (stop n : Nat) :
    Spec (writeEnd file pos stop n) s fun _ s' => s'.inodes = s.inodes ∧
      ∀ g, AppendFile p s g → AppendFile p s' g := by
  rw [writeEnd]
  split_ifs
  · apply spec_setFile
    intro v hv
    refine ⟨rfl, ?_⟩
    rintro g ⟨f, d, hf, hflag, hd, hp⟩
    by_cases hg : g = file
    · subst hg
      exact ⟨{ f with pos := stop }, d, by rw [Store.get_modify_self, hf, map_some], hflag, hd, hp⟩
    · exact ⟨f, d, by rw [Store.get_modify_of_ne _ hg, hf], hflag, hd, hp⟩
  · exact spec_pure ⟨rfl, fun _ h => h⟩

theorem begun_update {phase : Nat → WritePhase} {t : Nat} {new : WritePhase}
    (h : ∀ t file pos offset data, phase t = .begun file pos offset data → AppendFile p s file)
    (hkeep : ∀ g, AppendFile p s g → AppendFile p s' g)
    (hnew : ∀ file pos offset data, new = .begun file pos offset data → AppendFile p s' file)
    (t' : Nat) (file : Ptr) (pos : Option Nat) (offset : Nat) (data : List Byte)
    (hphase : update phase t new t' = .begun file pos offset data) : AppendFile p s' file := by
  rw [update_apply] at hphase
  split_ifs at hphase
  · exact hnew file pos offset data hphase
  · exact hkeep file (h t' file pos offset data hphase)

theorem AppendStep.inv {lo : Nat} {c c' : Appends} (h : AppendInv p lo c)
    (hstep : AppendStep p c c') : AppendInv p lo c' := by
  obtain ⟨⟨i, hi, ha, hchain, hbytes⟩, hbegun⟩ := h
  cases hstep with
  | @begin t file pos offset data s ht hf hrun =>
    obtain rfl : s = c.vfs := writeBegin_spec pos _ _ hrun
    refine ⟨⟨i, hi, ha, hchain, hbytes⟩, begun_update hbegun (fun _ h => h) ?_⟩
    intro file' pos' offset' data' hnew
    cases hnew
    exact hf
  | @write t env file pos offset start n data s ht hrun =>
    obtain ⟨hfiles, hdentries, hok⟩ :=
      writeLocked_spec (hbegun t file pos offset data ht) hi ha _ _ hrun
    obtain ⟨rfl, i', hi', ha', hsize, hnew⟩ := hok start n rfl
    refine ⟨⟨i', hi', ha', ?_, ?_⟩, begun_update hbegun ?_ nofun⟩
    · rw [hsize, Appends.spans, List.map_append]
      exact hchain.snoc
    · rw [hsize]
      intro hpage w hw
      obtain ⟨hholds, hkept⟩ := hnew hpage
      rcases List.mem_append.mp hw with hw | hw
      · have hend := (hchain.inside (List.mem_map_of_mem hw)).2
        intro k hk
        dsimp only at hend
        rw [hkept (w.1 + k) (by omega)]
        exact hbytes (by omega) w hw k hk
      · obtain rfl := List.mem_singleton.mp hw
        exact hholds
    · rintro g ⟨f, d, hf, hflag, hd, hp⟩
      exact ⟨f, d, by rw [hfiles, hf], hflag, by rw [hdentries, hd], hp⟩
  | @finish t file pos start n s ht hrun =>
    obtain ⟨hinodes, hfiles⟩ := writeEnd_spec (p := p) pos (start + n) n _ _ hrun
    refine ⟨⟨i, by rw [hinodes, hi], ha, hchain, hbytes⟩, begun_update hbegun hfiles fun _ _ _ _
      hnew => (by cases hnew)⟩

/-- In every interleaving the spans written are disjoint and tile what lies between the size at
the start and the size now, which is larger by the sum of the counts. As long as the file fits into
one page, every write is also read back. -/
theorem appends_tile {c₀ c : Appends} {i₀ : Inode} (hlog : c₀.log = [])
    (hidle : ∀ t, c₀.phase t = .idle) (hi₀ : c₀.vfs.inodes.get p = some i₀) (ha : i₀.data.Agree)
    (hrun : Relation.ReflTransGen (AppendStep p) c₀ c) :
    ∃ i, c.vfs.inodes.get p = some i ∧
      (c.spans.Pairwise fun r r' => Disjoint (span r) (span r')) ∧
      (⋃ r ∈ c.spans, span r) = Set.Ico i₀.data.size i.data.size ∧
      i.data.size = i₀.data.size + (c.spans.map Prod.snd).sum ∧
      (i.data.size ≤ pageSize → ∀ w ∈ c.log, i.data.Holds w) := by
  have hstart : AppendInv p i₀.data.size c₀ := by
    refine ⟨⟨i₀, hi₀, ha, ?_, ?_⟩, ?_⟩
    · rw [Appends.spans, hlog]
      exact .nil
    · rw [hlog]
      exact fun _ _ hw => absurd hw List.not_mem_nil
    · intro t file pos offset data hphase
      rw [hidle t] at hphase
      cases hphase
  have hinv : AppendInv p i₀.data.size c := by
    induction hrun with
    | refl => exact hstart
    | tail _ hstep ih => exact hstep.inv ih
  obtain ⟨i, hi, -, hchain, hbytes⟩ := hinv.chain
  exact ⟨i, hi, hchain.disjoint, hchain.union, hchain.end_eq, hbytes⟩

/-- The three parts one after the other are a call. -/
theorem appendRun_vfsWrite {c : Appends} {t offset start n : Nat} {data : List Byte}
    {pos : Option Nat} {s1 s2 : Vfs} (ht : c.phase t = .idle) (hf : AppendFile p c.vfs file)
    (hbegin : writeBegin file pos c.vfs = some (.ok offset, s1))
    (hlocked : writeLocked env file offset data s1 = some ((start, .ok n), s2))
    (hend : writeEnd file pos (start + n) n s2 = some ((), s)) :
    vfsWrite env file data pos c.vfs = some (.ok n, s) ∧
    Relation.ReflTransGen (AppendStep p) c
      ⟨s, update c.phase t .idle, c.log ++ [(start, data)]⟩ := by
  constructor
  · exact bind_eq_some.mpr ⟨_, s1, hbegin, bind_eq_some.mpr ⟨_, s2, hlocked,
      bind_eq_some.mpr ⟨_, s, hend, rfl⟩⟩⟩
  · have hstep : ∀ {x y : WritePhase} {s s' : Vfs} {log log' : List (Nat × List Byte)},
        AppendStep p ⟨s, update c.phase t x, log⟩ ⟨s', update (update c.phase t x) t y, log'⟩ →
        AppendStep p ⟨s, update c.phase t x, log⟩ ⟨s', update c.phase t y, log'⟩ := by
      intro x y s s' log log' h
      rwa [update_idem] at h
    have hwrite : AppendStep p ⟨s1, update c.phase t (.begun file pos offset data), c.log⟩
        ⟨s2, update c.phase t (.written file pos start n), c.log ++ [(start, data)]⟩ :=
      hstep (.write (update_self ..) hlocked)
    exact .head (.begin ht hf hbegin)
      (.head hwrite (.single (hstep (.finish (update_self ..) hend))))

/-- Root has created the file `/f`, inode `1`, and opened it for appending. -/
@[irreducible] def Vfs.appendFile : Vfs :=
  after (vfsOpen (Env.start 0) ['/', 'f'] (oCreat ||| oRdwr ||| oAppend) 0o644 ⟨0, 0⟩) Vfs.boot

theorem appendFile_leads (hflag : (s.files.get 0).all (Flags.has ·.flags oAppend) = true)
    (hdentry : ((s.files.get 0).bind fun f => (s.dentries.get f.path.dentry).bind Dentry.inode) =
      some 1) : AppendFile 1 s 0 := by
  obtain ⟨f, hf, hdentry⟩ := bind_eq_some_iff.mp hdentry
  obtain ⟨d, hd, hi⟩ := bind_eq_some_iff.mp hdentry
  rw [hf, all_some] at hflag
  exact ⟨f, d, hf, hflag, hd, hi⟩

theorem appendFile_agree : ∃ i, Vfs.appendFile.inodes.get 1 = some i ∧ i.data.Agree ∧
    i.data.size = 0 := by
  have hinode : (Vfs.appendFile.inodes.get 1).map (fun i => (i.data.size, i.data.dataSize)) = some
      (0, 0) := by
    decide +kernel
  obtain ⟨i, hi, hsizes⟩ := map_eq_some_iff.mp hinode
  obtain ⟨hsize, hdata⟩ := Prod.mk.inj hsizes
  exact ⟨i, hi, hdata.trans hsize.symm, hsize⟩

/-- Two tasks write to it, and the second is the first to get the lock. -/
@[irreducible] def Vfs.firstAppend : Vfs :=
  after (writeLocked (Env.start 0) 0 0 [4, 5]) Vfs.appendFile

@[irreducible] def Vfs.secondAppend : Vfs :=
  after (writeLocked (Env.start 0) 0 0 [1, 2, 3]) Vfs.firstAppend

@[irreducible] def Vfs.appendsDone : Vfs := after (writeEnd 0 none 5 3) Vfs.secondAppend

theorem twoAppends_run : ∃ phase, Relation.ReflTransGen (AppendStep 1)
    ⟨Vfs.appendFile, fun _ => .idle, []⟩
      ⟨Vfs.appendsDone, phase, [(0, [4, 5]), (2, [1, 2, 3])]⟩ := by
  have hf : AppendFile 1 Vfs.appendFile 0 :=
    appendFile_leads (by decide +kernel) (by decide +kernel)
  have hbegin : writeBegin 0 none Vfs.appendFile = some (.ok 0, Vfs.appendFile) :=
    writeBegin_eq (by decide +kernel)
  have hfirst : writeLocked (Env.start 0) 0 0 [4, 5] Vfs.appendFile =
      some ((0, .ok 2), Vfs.firstAppend) := by
    rw [Vfs.firstAppend]
    exact run_after (by decide +kernel)
  have hsecond : writeLocked (Env.start 0) 0 0 [1, 2, 3] Vfs.firstAppend =
      some ((2, .ok 3), Vfs.secondAppend) := by
    rw [Vfs.secondAppend]
    exact run_after (by decide +kernel)
  have hend : writeEnd 0 none 5 3 Vfs.secondAppend = some ((), Vfs.appendsDone) := by
    rw [Vfs.appendsDone]
    exact run_after (by decide +kernel)
  have h0 : AppendStep 1 ⟨Vfs.appendFile, fun _ => .idle, []⟩ ⟨Vfs.appendFile,
      update (fun _ => .idle) 0 (.begun 0 none 0 [1, 2, 3]), []⟩ := .begin rfl hf hbegin
  exact ⟨_, .head h0 (.head (.begin (t := 1) rfl hf hbegin) (.head (.write (t := 1) rfl hfirst)
    (.head (.write (t := 0) rfl hsecond) (.single (.finish (t := 0) rfl hend)))))⟩

theorem appends_tile_two :
    ∃ c, Relation.ReflTransGen (AppendStep 1) ⟨Vfs.appendFile, fun _ => .idle, []⟩ c ∧
      c.spans = [(0, 2), (2, 3)] ∧
      ∃ i, c.vfs.inodes.get 1 = some i ∧ i.data.size = 5 ∧
        i.data.Holds (0, [4, 5]) ∧ i.data.Holds (2, [1, 2, 3]) := by
  obtain ⟨phase, hrun⟩ := twoAppends_run
  obtain ⟨i₀, hi₀, ha, hsize⟩ := appendFile_agree
  obtain ⟨i, hi, -, -, hsum, hholds⟩ := appends_tile rfl (fun _ => rfl) hi₀ ha hrun
  rw [hsize] at hsum
  have hpage : i.data.size ≤ pageSize := hsum.trans_le (show 5 ≤ 4096 by decide)
  exact ⟨_, hrun, rfl, i, hi, hsum, hholds hpage _ (by simp), hholds hpage _ (by simp)⟩

/-- A task fills the first page and then appends a byte. -/
@[irreducible] def Vfs.pageLocked : Vfs :=
  after (writeLocked (Env.start 0) 0 0 (List.replicate 4096 255)) Vfs.appendFile

@[irreducible] def Vfs.pageFull : Vfs := after (writeEnd 0 none 4096 4096) Vfs.pageLocked

@[irreducible] def Vfs.nextLocked : Vfs := after (writeLocked (Env.start 0) 0 4096 [1]) Vfs.pageFull

@[irreducible] def Vfs.nextByte : Vfs := after (writeEnd 0 none 4097 1) Vfs.nextLocked

/-- The byte comes to lie on byte `8`. -/
theorem appends_overlap :
    ∃ c, Relation.ReflTransGen (AppendStep 1) ⟨Vfs.appendFile, fun _ => .idle, []⟩ c ∧
      c.log = [(0, List.replicate 4096 255), (4096, [1])] ∧
      ∃ i, c.vfs.inodes.get 1 = some i ∧ ¬i.data.Holds (0, List.replicate 4096 255) := by
  have hpage : writeLocked (Env.start 0) 0 0 (List.replicate 4096 255) Vfs.appendFile =
      some ((0, .ok 4096), Vfs.pageLocked) := by
    rw [Vfs.pageLocked]
    exact run_after (by decide +kernel)
  have hfull : writeEnd 0 none (0 + 4096) 4096 Vfs.pageLocked = some ((), Vfs.pageFull) := by
    rw [Vfs.pageFull]
    exact run_after (by decide +kernel)
  have hnext : writeLocked (Env.start 0) 0 4096 [1] Vfs.pageFull =
      some ((4096, .ok 1), Vfs.nextLocked) := by
    rw [Vfs.nextLocked]
    exact run_after (by decide +kernel)
  have hend : writeEnd 0 none (4096 + 1) 1 Vfs.nextLocked = some ((), Vfs.nextByte) := by
    rw [Vfs.nextByte]
    exact run_after (by decide +kernel)
  have hbyte : (Vfs.nextByte.inodes.get 1).map (·.data.fileByte 8) = some 1 := by decide +kernel
  obtain ⟨i, hi, hbyte⟩ := map_eq_some_iff.mp hbyte
  have hfirst := (appendRun_vfsWrite (c := ⟨Vfs.appendFile, fun _ => .idle, []⟩) (t := 0) rfl
    (appendFile_leads (by decide +kernel) (by decide +kernel)) (writeBegin_eq (by decide +kernel))
    hpage hfull).2
  have hsecond := (appendRun_vfsWrite (c := ⟨Vfs.pageFull, update (fun _ => .idle) 0 .idle,
      [(0, List.replicate 4096 255)]⟩) (t := 0) rfl
    (appendFile_leads (by decide +kernel) (by decide +kernel)) (writeBegin_eq (by decide +kernel))
    hnext hend).2
  refine ⟨_, hfirst.trans hsecond, rfl, i, hi, fun h => ?_⟩
  have h8 := h 8 (List.length_replicate ▸ (by decide : 8 < 4096))
  rw [Nat.zero_add, hbyte, List.getD_eq_getElem?_getD, List.getElem?_replicate_of_lt (by decide)]
    at h8
  exact absurd h8 (by decide)

end ShiziOS.Fs
