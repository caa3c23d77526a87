import Xv6.VmImage
import Xv6.Reading
import Xv6.Writing

/-!
Loading a program. Whatever bytes the file has, and whatever memory there is, `exec` builds an image in its directory
or fails without a panic.
-/
namespace Xv6.Exec
open Xv6 Xv6.Lib Xv6.Vm Prog Function

variable {k : Link} {own own' : Nat → Owner} {l l' : List Nat} {m : Mach} {d : Nat} {α : Type} {p : Pid} {ip : Slot} {n : Node}
  {E : Stop Wait → Prop}

theorem post_onFs {c : Call α} {Q : α → Node → Prop} :
    post (onFs p c) Q E n = wp (kernel p) c (fun a s => Q a { n with fs := s }) E n.fs := by
  unfold post onFs wp
  dsimp only
  cases Lib.exec (kernel p) c n.fs <;> rfl

theorem post_onVm {x : VM α} {Q : α → Node → Prop} :
    post (onVm x) Q E n = post x (fun a m => Q a { n with vm := m }) (fun why => E (.panic why)) n.vm := by
  unfold post onVm
  dsimp only
  cases x n.vm <;> rfl

theorem onVm_bind {β : Type} {y : ExecM α} {x : VM α} {f : α → ExecM β} {g : α → VM β} (first : y n = onVm x n)
    (then' : ∀ a m, f a { n with vm := m } = onVm (g a) { n with vm := m }) : (y >>= f) n = onVm (x >>= g) n := by
  cases ran : x n.vm with
  | error why => simp [Bind.bind,StateT.bind,Except.bind,onVm,first,ran]
  | ok r => simpa [Bind.bind,StateT.bind,Except.bind,onVm,first,ran] using then' r.1 r.2

theorem get_bind {g : Node → ExecM α} : (get >>= g) n = g n n := rfl

theorem onVm_get {g : Mach → VM α} : onVm (get >>= g) n = onVm (g n.vm) n := rfl

/-! ### Files -/

/-- What `readi` gives for a file of so many bytes. -/
def readBytes (size : Nat) (data : Nat → UInt8) (off n : Nat) : Option (List UInt8) :=
  if off > size ∨ (off + n) % 2 ^ 32 < off then none else some (slice data off (min n (size - off)))

/-- The inode is in the cache, and the file has no holes. -/
structure Whole (s : State) (ip : Slot) (f : Dinode) : Prop where
  node : (s.icache ip).node = f
  type : f.type ≠ T_DEV
  small : f.size.toNat ≤ MAXFILE * BSIZE
  there : ∀ bn, bn * BSIZE < f.size.toNat → blk s.disk f bn ≠ 0

theorem Whole.bind {f : Dinode} (whole : Whole n.fs ip f) {off len : Nat} {g : Option (List UInt8) → ExecM α} :
    (onFs p (call (.readi ip off len)) >>= g) n = g (readBytes f.size.toNat (content n.fs.disk f) off len) n := by
  have reads : onFs p (call (.readi ip off len)) n = .ok (readBytes f.size.toNat (content n.fs.disk f) off len,n) := by
    refine post_run ?_
    rw [post_onFs,Refs.wp_kernel]
    unfold kernelStep post readBytes
    dsimp only
    by_cases past : off > f.size.toNat ∨ (off + len) % 2 ^ 32 < off
    · rw [readi_refused whole.node whole.type past,if_pos past]
      exact ⟨rfl,rfl⟩
    · rw [readi_reads whole.node whole.type whole.small past,if_neg past]
      · exact ⟨rfl,rfl⟩
      · intro bn touches
        obtain ⟨_,_,last⟩ := touches
        exact whole.there bn (by omega)
  change (onFs p (call (.readi ip off len)) n >>= fun r => g r.1 r.2) = _
  rw [reads]
  rfl

theorem readBytes_full {size off n : Nat} (data : Nat → UInt8) (small : size < 2 ^ 32) (some' : 0 < n) :
    ((readBytes size data off n).getD []).length = n ↔ off + n ≤ size := by
  unfold readBytes
  split
  · simp only [Option.getD_none,List.length_nil]
    omega
  · simp only [Option.getD_some,slice_length]
    omega

theorem readBytes_getD (size : Nat) (data : Nat → UInt8) (off n j : Nat) (inside : j < ((readBytes size data off n).getD []).length) :
    ((readBytes size data off n).getD []).getD j 0 = data (off + j) := by
  unfold readBytes at inside ⊢
  split
  · next past =>
    rw [if_pos past] at inside
    exact absurd inside (Nat.not_lt_zero _)
  · next legal =>
    rw [if_neg legal] at inside
    simp only [Option.getD_some,slice_length] at inside ⊢
    simp [slice,List.getD_eq_getElem?_getD,inside]

/-! ### Segments -/

section
variable {f : Dinode} {size phoff : Nat} {data : Nat → UInt8} {ph : Nat → Proghdr}

/-- What `readi` gives for the pages of a segment of the file. -/
def chunks (size : Nat) (data : Nat → UInt8) (offset sz : Nat) : Chunks := fun i =>
  (readBytes size data ((offset + i * PGSIZE) % 2 ^ 32) (min (sz - i * PGSIZE) PGSIZE)).getD []

/-- Reading the file while it loads, `loaduvm` is the one on memory with what the file holds. -/
theorem Whole.loaduvm (whole : Whole n.fs ip f) (addr offset sz : Nat) :
    loaduvm p d addr ip offset sz n = onVm (Vm.loaduvm d addr sz (chunks f.size.toNat (content n.fs.disk f) offset sz)) n := by
  have loop (fuel : Nat) : ∀ (i : Nat) (m : Mach), loaduvm_from p d addr ip offset sz fuel i { n with vm := m } =
      onVm (Vm.loaduvm_from d addr sz (chunks f.size.toNat (content n.fs.disk f) offset sz) fuel i) { n with vm := m } := by
    induction fuel with
    | zero => exact fun _ _ => rfl
    | succ fuel ih =>
      intro i m
      rw [loaduvm_from,Vm.loaduvm_from]
      split
      · refine onVm_bind rfl fun found m₁ => ?_
        cases found with
        | none => rfl
        | some place =>
          dsimp only
          rw [get_bind,onVm_get,Whole.bind (n := { n with vm := m₁ }) whole]
          refine onVm_bind (n := { n with vm := m₁ }) rfl fun _ m₂ => ?_
          change (if (chunks f.size.toNat (content n.fs.disk f) offset sz i).length ≠ _ then _ else _ : ExecM Bool) _ = _
          split
          · rfl
          · exact ih (i + 1) m₂
      · rfl
  unfold Exec.loaduvm Vm.loaduvm
  split
  · rfl
  · exact loop _ 0 n.vm

theorem loaduvm_from_spec (small : size < 2 ^ 32) {addr offset sz fsz : Nat} (aligned : addr % PGSIZE = 0)
    (inside : addr + fsz ≤ sz) (fuel : Nat) : ∀ {i : Nat} {m' : Mach}, Built k d sz own m own' l' m' →
      fsz ≤ (i + fuel) * PGSIZE → (i * PGSIZE < fsz → offset + i * PGSIZE < 2 ^ 32) →
      post (Vm.loaduvm_from d addr fsz (chunks size data offset fsz) fuel i) (fun r m₂ => ∃ len src,
        Poked k d (addr + min (i * PGSIZE) fsz) len src own' l' m' m₂ ∧ (r = true → len = fsz - i * PGSIZE ∧
          (∀ j < len, src j = data (offset + min (i * PGSIZE) fsz + j)) ∧
          (i * PGSIZE < fsz → offset + fsz ≤ size)) ∧ (offset + fsz ≤ size → r = true)) (fun _ => False) m' := by
  have ends {i : Nat} {m' : Mach} (built : Built k d sz own m own' l' m') (less : fsz ≤ i * PGSIZE) :
      ∃ len src, Poked k d (addr + min (i * PGSIZE) fsz) len src own' l' m' m' ∧
        (true = true → len = fsz - i * PGSIZE ∧ (∀ j < len, src j = data (offset + min (i * PGSIZE) fsz + j)) ∧
          (i * PGSIZE < fsz → offset + fsz ≤ size)) ∧ (offset + fsz ≤ size → true = true) :=
    ⟨0,fun _ => 0,.nothing built.made.sound built.made.dir,
      fun _ => ⟨by omega,fun j no => absurd no (Nat.not_lt_zero j),fun more => by omega⟩,fun _ => rfl⟩
  induction fuel with
  | zero => exact fun built enough _ => ends built enough
  | succ fuel ih =>
    intro i m' built enough start
    rw [Vm.loaduvm_from]
    split
    · next more =>
      have begins := start more
      have below := built.size
      have base : KERNBASE = 2147483648 := rfl
      have last := pages_user below
      have page : (addr + i * PGSIZE) % 2 ^ 32 / PGSIZE = addr / PGSIZE + i := by
        rw [PGSIZE_eq] at *
        omega
      have place : (addr / PGSIZE + i) * PGSIZE + 0 = addr + i * PGSIZE := by
        rw [PGSIZE_eq] at *
        omega
      have low : addr / PGSIZE + i < pages sz := by
        rw [lt_pages]
        omega
      have present := built.present low
      have some' : entry m'.mem d (addr / PGSIZE + i) ≠ 0 := by
        intro zero
        rw [zero] at present
        simp at present
      obtain ⟨t,j,found,same⟩ := lookup_entry some'
      rw [page,post_bind,post_lookup,found]
      dsimp only
      have read : chunks size data offset fsz i = (readBytes size data (offset + i * PGSIZE) (min (fsz - i * PGSIZE) PGSIZE)).getD [] := by
        rw [chunks,Nat.mod_eq_of_lt begins]
      rw [post_bind,post_get,same,read]
      generalize part : min (fsz - i * PGSIZE) PGSIZE = len
      have some' : 0 < len := by
        rw [PGSIZE_eq] at *
        omega
      rw [min_eq_left (Nat.le_of_lt more),post_bind,post_modify]
      have each := readBytes_getD size data (offset + i * PGSIZE) len
      have full := @readBytes_full size (offset + i * PGSIZE) _ data small some'
      generalize (readBytes size data (offset + i * PGSIZE) len).getD [] = bytes at each full ⊢
      -- the page with what has been read
      have poked := built.made.sound.poke built.made.dir (by omega) present (show 0 + min bytes.length len ≤ PGSIZE by omega)
        fun j => bytes.getD j 0
      rw [place] at poked
      change post _ _ _ (m'.poke (PTE_ADDR (entry m'.mem d (addr / PGSIZE + i))) 0 (min bytes.length len) fun j => bytes.getD j 0)
      generalize m'.poke (PTE_ADDR (entry m'.mem d (addr / PGSIZE + i))) 0 (min bytes.length len) (fun j => bytes.getD j 0) = m₁ at *
      split
      · next part => exact ⟨_,_,poked,nofun,fun fits => absurd (full.mpr (by omega)) part⟩
      · next all =>
        have all : bytes.length = len := not_not.mp all
        have step : (i + 1) * PGSIZE = i * PGSIZE + PGSIZE := Nat.succ_mul ..
        have next : min ((i + 1) * PGSIZE) fsz = i * PGSIZE + len := by omega
        have within := full.mp all
        rw [all,min_self] at poked
        refine post_use (ih (built.poked poked) (by rw [Nat.add_right_comm]; exact enough) fun more' => by omega)
          fun r m₂ ⟨len',src',poked',done,loads⟩ => ?_
        · rw [next,← Nat.add_assoc] at poked'
          refine ⟨len + len',fun j => if j < len then bytes.getD j 0 else src' (j - len),?_,fun r => ?_,loads⟩
          · refine .trans ⟨poked.work,poked.entries,fun a user => ?_⟩ ?_
            · rw [poked.bytes a user]
              split
              · next within => rw [if_pos (by omega)]
              · rfl
            · have shift : (fun j => if len + j < len then bytes.getD (len + j) 0 else src' (len + j - len)) = src' := by
                funext j
                rw [if_neg (by omega),Nat.add_sub_cancel_left]
              rwa [shift]
          · obtain ⟨length,same',rest⟩ := done r
            refine ⟨by omega,fun j inside => ?_,fun _ => by omega⟩
            dsimp only
            split
            · next first => exact each j (by omega)
            · rw [same' _ (by omega),next,show offset + (i * PGSIZE + len) + (j - len) = offset + i * PGSIZE + j by omega]
    · next less => exact ends built (Nat.le_of_not_lt less)

/-- What `readi` gives for the program header of this number. -/
def headerBytes (size : Nat) (data : Nat → UInt8) (phoff j : Nat) : List UInt8 :=
  (readBytes size data ((phoff + proghdrSize * j) % 2 ^ 32) proghdrSize).getD []

/-- The program header of the file with this number. -/
def header (size : Nat) (data : Nat → UInt8) (phoff j : Nat) : Proghdr := .decode (headerBytes size data phoff j)

/-- The header with its segment, as the loop over memory takes it. -/
def loadable (size : Nat) (data : Nat → UInt8) (phoff j : Nat) : Header :=
  let ph := header size data phoff j
  if (headerBytes size data phoff j).length ≠ proghdrSize then .unreadable
  else if ph.type ≠ ELF_PROG_LOAD then .other
  else .load (.ofNat ph.vaddr) (.ofNat ph.memsz) (.ofNat ph.filesz) (chunks size data ph.off ph.filesz)

/-- The byte of the address space is one of the segment that comes from the file. -/
def Proghdr.Covers (ph : Proghdr) (a : Nat) : Prop := ph.type = ELF_PROG_LOAD ∧ ph.vaddr ≤ a ∧ a < ph.vaddr + ph.filesz

/-- The segments of the first `i` headers are in memory below `sz`, where no later one has been read over them. -/
structure Segments (ph : Nat → Proghdr) (size : Nat) (data : Nat → UInt8) (i sz : Nat) (mem : Nat → Bytes PGSIZE) (d : Nat) : Prop where
  fits : ∀ j < i, (ph j).type = ELF_PROG_LOAD →
    (ph j).filesz ≤ (ph j).memsz ∧
      (ph j).vaddr + (ph j).memsz ≤ sz
  bytes : ∀ j < i, ∀ a, (ph j).Covers a → (∀ j', j < j' → j' < i → ¬(ph j').Covers a) →
    (ph j).off + (a - (ph j).vaddr) < size ∧
      peek mem d a = data ((ph j).off + (a - (ph j).vaddr))

theorem Segments.below {i sz : Nat} {mem : Nat → Bytes PGSIZE} (segments : Segments ph size data i sz mem d) {j a : Nat} (inside : j < i)
    (covers : (ph j).Covers a) : a < sz := by
  obtain ⟨type,low,high⟩ := covers
  have := segments.fits j inside type
  omega

theorem Segments.grow {i sz sz' : Nat} {mem mem' : Nat → Bytes PGSIZE} (segments : Segments ph size data i sz mem d) (order : sz ≤ sz')
    (same : ∀ a < sz, peek mem' d a = peek mem d a) : Segments ph size data i sz' mem' d := by
  refine ⟨fun j inside type => ?_,fun j inside a covers last => ?_⟩
  · have := segments.fits j inside type
    omega
  · rw [same a (segments.below inside covers)]
    exact segments.bytes j inside a covers last

theorem Segments.skip {i sz : Nat} {mem : Nat → Bytes PGSIZE} (segments : Segments ph size data i sz mem d)
    (other : (ph i).type ≠ ELF_PROG_LOAD) : Segments ph size data (i + 1) sz mem d := by
  have before {j : Nat} (inside : j < i + 1) (type : (ph j).type = ELF_PROG_LOAD) : j < i := by
    rcases Nat.lt_succ_iff_lt_or_eq.mp inside with low | rfl
    · exact low
    · exact absurd type other
  refine ⟨fun j inside type => segments.fits j (before inside type) type,fun j inside a covers last => ?_⟩
  exact segments.bytes j (before inside covers.1) a covers fun j' later inside' => last j' later (by omega)

theorem Segments.load {i sz : Nat} {m m' : Mach} {src : Nat → UInt8} (segments : Segments ph size data i sz m.mem d)
    (type : (ph i).type = ELF_PROG_LOAD) (order : (ph i).filesz ≤ (ph i).memsz)
    (below : (ph i).vaddr + (ph i).memsz ≤ sz) (user : sz ≤ KERNBASE)
    (poked : Poked k d (ph i).vaddr (ph i).filesz src own' l' m m')
    (same : ∀ b < (ph i).filesz, src b = data ((ph i).off + b))
    (file : 0 < (ph i).filesz → (ph i).off + (ph i).filesz ≤ size) :
    Segments ph size data (i + 1) sz m'.mem d := by
  refine ⟨fun j inside type' => ?_,fun j inside a covers last => ?_⟩
  · rcases Nat.lt_succ_iff_lt_or_eq.mp inside with low | rfl
    · exact segments.fits j low type'
    · exact ⟨order,below⟩
  · rcases Nat.lt_succ_iff_lt_or_eq.mp inside with low | rfl
    · have apart : ¬(ph i).Covers a := last i low (by omega)
      have inside' := segments.below low covers
      rw [poked.bytes a (by omega),if_neg fun both => apart ⟨type,both⟩]
      exact segments.bytes j low a covers fun j' later inside' => last j' later (by omega)
    · obtain ⟨_,low,high⟩ := covers
      rw [poked.bytes a (by omega),if_pos ⟨low,high⟩,same _ (by omega)]
      have := file (by omega)
      exact ⟨by omega,rfl⟩

theorem word_lt (bytes : List UInt8) (off w : Nat) : word bytes off w < 256 ^ w := leNat_lt _ w

theorem header_lt (size : Nat) (data : Nat → UInt8) (phoff j : Nat) : (header size data phoff j).off < 2 ^ 32 ∧
    (header size data phoff j).vaddr < 2 ^ 32 ∧ (header size data phoff j).filesz < 2 ^ 32 ∧ (header size data phoff j).memsz < 2 ^ 32 :=
  ⟨word_lt _ _ 4,word_lt _ _ 4,word_lt _ _ 4,word_lt _ _ 4⟩

/-- What loading has left: a directory that is nobody else's, and with a size, an image. -/
structure Loading (k : Link) (d : Nat) (own : Nat → Owner) (m : Mach) (segments : Nat → (Nat → Bytes PGSIZE) → Prop) (r : Option Nat)
    (m' : Mach) : Prop where
  made : ∃ own' l', Made k d own m own' l' m'
  built : ∀ sz, r = some sz → sz < KERNBASE ∧ segments sz m'.mem ∧ ∃ own' l', Built k d sz own m own' l' m'

/-- The loop over the program headers of the file is the one on memory with the headers that the file holds. -/
theorem Whole.exec_load (whole : Whole n.fs ip f) (left : Nat) : ∀ (i sz : Nat) (m : Mach),
    exec_load k p ip d phoff left i sz { n with vm := m } =
      onVm (Vm.exec_load k d ((List.range' i left).map (loadable f.size.toNat (content n.fs.disk f) phoff)) sz) { n with vm := m } := by
  induction left with
  | zero => exact fun _ _ _ => rfl
  | succ left ih =>
    intro i sz m
    rw [Exec.exec_load,Whole.bind (n := { n with vm := m }) whole,List.range'_succ,List.map_cons,loadable]
    have folded : Proghdr.decode ((readBytes f.size.toNat (content n.fs.disk f) ((phoff + proghdrSize * i) % 2 ^ 32) proghdrSize).getD []) =
      header f.size.toNat (content n.fs.disk f) phoff i := rfl
    have narrow := header_lt f.size.toNat (content n.fs.disk f) phoff i
    dsimp only
    rw [folded,← headerBytes]
    generalize header f.size.toNat (content n.fs.disk f) phoff i = ph at narrow ⊢
    split
    · rfl
    split
    · exact ih (i + 1) sz m
    rw [Vm.exec_load]
    simp only [UInt32.lt_iff_toNat_lt,UInt32.toNat_add,UInt32.toNat_ofNat_of_lt' narrow.2.1,UInt32.toNat_ofNat_of_lt' narrow.2.2.1,
      UInt32.toNat_ofNat_of_lt' narrow.2.2.2]
    split
    · rfl
    split
    · rfl
    refine onVm_bind rfl fun sz' m₁ => ?_
    split
    · rfl
    split
    · rfl
    refine onVm_bind (Whole.loaduvm (n := { n with vm := m₁ }) whole ..) fun loaded m₂ => ?_
    cases loaded with
    | false => rfl
    | true => exact ih (i + 1) sz' m₂

/-- The loop over the program headers loads the segments, or the image is given up. -/
theorem exec_load_spec (small : size < 2 ^ 32) (left : Nat) :
    ∀ {i sz : Nat} {own' : Nat → Owner} {l' : List Nat} {m' : Mach}, Built k d sz own m own' l' m' → sz < KERNBASE →
      Segments (header size data phoff) size data i sz m'.mem d →
      post (Vm.exec_load k d ((List.range' i left).map (loadable size data phoff)) sz)
        (Loading k d own m fun sz mem => Segments (header size data phoff) size data (i + left) sz mem d) (fun _ => False) m' := by
  have base : KERNBASE = 2147483648 := rfl
  induction left with
  | zero =>
    intro i sz own' l' m' built below segments
    refine ⟨⟨_,_,built.made⟩,fun sz' same => ?_⟩
    cases same
    exact ⟨below,segments,_,_,built⟩
  | succ left ih =>
    intro i sz own' l' m' built below segments
    rw [List.range'_succ,List.map_cons,show i + (left + 1) = i + 1 + left by omega,loadable]
    have narrow := header_lt size data phoff i
    generalize headers : header size data phoff i = ph at narrow ⊢
    split
    · exact ⟨⟨_,_,built.made⟩,nofun⟩
    split
    · next other => exact ih built below (segments.skip (by rwa [headers]))
    · next type =>
      rw [Vm.exec_load]
      simp only [UInt32.lt_iff_toNat_lt,UInt32.toNat_add,UInt32.toNat_ofNat_of_lt' narrow.2.1,UInt32.toNat_ofNat_of_lt' narrow.2.2.1,
        UInt32.toNat_ofNat_of_lt' narrow.2.2.2]
      split
      · exact ⟨⟨_,_,built.made⟩,nofun⟩
      next order =>
      split
      · exact ⟨⟨_,_,built.made⟩,nofun⟩
      next wraps =>
      rw [show (ph.vaddr + ph.memsz) % 2 ^ 32 = ph.vaddr + ph.memsz by omega,post_bind]
      refine post_use built.allocuvm fun r m₁ ⟨made,grown,_⟩ => ?_
      split
      · exact ⟨made,nofun⟩
      next some' =>
      obtain ⟨larger,below₁,own₁,l₁,built₁,bytes⟩ := grown some'
      split
      · exact ⟨made,nofun⟩
      next aligned =>
      have aligned := not_not.mp aligned
      rw [post_bind,Vm.loaduvm,if_neg (not_not.mpr aligned)]
      refine post_use (loaduvm_from_spec small aligned (by omega) _ (i := 0) built₁ (by rw [PGSIZE_eq]; omega)
        fun _ => by omega) fun loaded m₂ ⟨len,src,poked,done,_⟩ => ?_
      cases loaded with
      | false => exact ⟨⟨_,_,(built₁.poked poked).made⟩,nofun⟩
      | true =>
        obtain ⟨rfl,file⟩ := done rfl
        simp only [Nat.zero_mul,Nat.zero_min,Nat.add_zero,Nat.sub_zero] at poked file
        rw [if_pos rfl]
        subst headers
        refine ih (built₁.poked poked) (by omega) ?_
        exact (segments.grow (show sz ≤ r by omega) bytes).load (not_not.mp type) (by omega) (by omega) built₁.size poked file.1 file.2

theorem exec_program_loads (whole : Whole n.fs ip f) (sound : Sound k own l n.vm) :
    post (exec_program k p ip) (fun r n' => ∃ m', n' = { n with vm := m' } ∧ match r with
      | .bad pgdir => ∀ d, pgdir = some d → ∃ own' l', Made k d own n.vm own' l' m'
      | .done d elf sz => elf = (readBytes f.size.toNat (content n.fs.disk f) 0 elfhdrSize).getD [] ∧ sz < KERNBASE ∧
          Segments (header f.size.toNat (content n.fs.disk f) (word elf 28 4)) f.size.toNat (content n.fs.disk f)
            (word elf 44 2) sz m'.mem d ∧
          ∃ own' l', Built k d sz own n.vm own' l' m') (fun _ => False) n := by
  unfold exec_program
  rw [post,whole.bind,← post]
  split
  · exact ⟨n.vm,rfl,by simp⟩
  split
  · exact ⟨n.vm,rfl,by simp⟩
  rw [post_bind,post_onVm]
  refine post_use (setupkvm_built sound) fun d m₁ made => ?_
  cases d with
  | none => exact ⟨m₁,rfl,by simp⟩
  | some d =>
    obtain ⟨own₁,l₁,built⟩ := made
    dsimp only
    rw [post_bind,post,whole.exec_load,← post,post_onVm]
    refine post_use (exec_load_spec f.size.toNat_lt _ built (by decide) ⟨fun j no => absurd no (Nat.not_lt_zero j),
      fun j no => absurd no (Nat.not_lt_zero j)⟩) fun loaded m₂ loading => ?_
    cases loaded with
    | none =>
      refine ⟨m₂,rfl,fun d' same => ?_⟩
      cases same
      exact loading.made
    | some sz =>
      obtain ⟨below,segments,built'⟩ := loading.built sz rfl
      rw [Nat.zero_add] at segments
      exact ⟨m₂,rfl,rfl,below,segments,built'⟩

/-- Whatever the file, loading it does not panic, nor does freeing what has been loaded. With a size, there is room for the
segments, and their bytes are those of the file. -/
theorem exec_program_safe (whole : Whole n.fs ip f) (sound : Sound k own l n.vm) :
    ∃ r m', exec_program k p ip n = .ok (r,{ n with vm := m' }) ∧ match r with
      | .bad pgdir => ∀ d, pgdir = some d → ∃ m₂, freevm k d m' = .ok ((),m₂)
      | .done d elf sz => elf = (readBytes f.size.toNat (content n.fs.disk f) 0 elfhdrSize).getD [] ∧ sz < KERNBASE ∧
          ∃ r m₂, exec_guard k d sz m' = .ok (r,m₂) ∧ match r with
            | none => ∃ m₃, freevm k d m₂ = .ok ((),m₃)
            | some sz' => sz ≤ sz' ∧ sz' < KERNBASE ∧
                Segments (header f.size.toNat (content n.fs.disk f) (word elf 28 4)) f.size.toNat (content n.fs.disk f)
                  (word elf 44 2) sz m₂.mem d := by
  have freed {d : Nat} {m' : Mach} (made : ∃ own' l', Made k d own n.vm own' l' m') : ∃ m₂, freevm k d m' = .ok ((),m₂) := by
    obtain ⟨own',l',made⟩ := made
    obtain ⟨_,m₂,ran,_⟩ := post_returns (freevm_spec (E := fun _ => False) made.sound made.dir)
    exact ⟨m₂,ran⟩
  obtain ⟨r,_,ran,m',rfl,ends⟩ := post_returns (exec_program_loads (p := p) whole sound)
  refine ⟨r,m',ran,?_⟩
  cases r with
  | bad pgdir => exact fun d here => freed (ends d here)
  | done d elf sz =>
    obtain ⟨header,below,segments,own',l',built⟩ := ends
    obtain ⟨r,m₂,ran',guard⟩ := post_returns (built.guard (E := fun _ => False))
    refine ⟨header,below,r,m₂,ran',?_⟩
    cases r with
    | none => exact freed guard
    | some sz' =>
      obtain ⟨rfl,high,bytes⟩ := guard
      refine ⟨?_,high,segments.grow (le_refl _) bytes⟩
      rw [PGSIZE_eq]
      simp only [pages]
      omega

/-- A program of one segment is loaded where there is memory for it. -/
theorem exec_program_one (whole : Whole n.fs ip f) (sound : Sound k own l n.vm) {elf : List UInt8} {ph : Proghdr}
    (elves : (readBytes f.size.toNat (content n.fs.disk f) 0 elfhdrSize).getD [] = elf) (magic : elf.length = elfhdrSize ∧ word elf 0 4 = ELF_MAGIC)
    (one : word elf 44 2 = 1) (headers : header f.size.toNat (content n.fs.disk f) (word elf 28 4) 0 = ph)
    (whole' : (headerBytes f.size.toNat (content n.fs.disk f) (word elf 28 4) 0).length = proghdrSize) (type : ph.type = ELF_PROG_LOAD)
    (order : ph.filesz ≤ ph.memsz) (aligned : ph.vaddr % PGSIZE = 0) (some' : 0 < ph.memsz) (high : ph.vaddr + ph.memsz < KERNBASE)
    (inside : ph.off + ph.filesz ≤ f.size.toNat) (enough : ∀ i, Fails i l n.vm → 65 + 2 * pages (ph.vaddr + ph.memsz) ≤ i) :
    ∃ d m', exec_program k p ip n = .ok (.done d elf (ph.vaddr + ph.memsz),{ n with vm := m' }) := by
  have base : KERNBASE = 2147483648 := rfl
  have narrow := header_lt f.size.toNat (content n.fs.disk f) (word elf 28 4) 0
  have small : f.size.toNat < 2 ^ 32 := f.size.toNat_lt
  have done : post (exec_program k p ip) (fun r n' => ∃ d m', r = .done d elf (ph.vaddr + ph.memsz) ∧ n' = { n with vm := m' }) (fun _ => False) n := by
    unfold exec_program
    rw [post,whole.bind,← post,elves]
    rw [if_neg (not_not.mpr magic.1),if_neg (not_not.mpr magic.2),post_bind,post_onVm]
    refine post_use (setupkvm_spec sound) fun d m₁ made => ?_
    cases d with
    | none =>
      obtain ⟨_,i,few,fails⟩ := made
      have := enough i fails
      have : 0 < pages (ph.vaddr + ph.memsz) := by rw [pages]; omega
      omega
    | some d =>
      obtain ⟨own₁,l₁,made,bare,_,_,spent,_⟩ := made
      dsimp only
      rw [post_bind,post,whole.exec_load,← post,post_onVm,one,List.range'_one,List.map_singleton,loadable]
      dsimp only
      rw [headers] at narrow ⊢
      rw [if_neg (not_not.mpr whole'),if_neg (not_not.mpr type),Vm.exec_load]
      simp only [UInt32.lt_iff_toNat_lt,UInt32.toNat_add,UInt32.toNat_ofNat_of_lt' narrow.2.1,UInt32.toNat_ofNat_of_lt' narrow.2.2.1,
        UInt32.toNat_ofNat_of_lt' narrow.2.2.2]
      rw [if_neg (by omega),Nat.mod_eq_of_lt (by omega),if_neg (by omega),post_bind]
      have built : Built k d 0 own n.vm own₁ l₁ m₁ :=
        ⟨made,Nat.zero_le _,fun v inside => absurd inside (Nat.not_lt_zero v),fun v user _ => bare v user⟩
      refine post_use built.allocuvm fun r m₂ grown => ?_
      obtain ⟨_,grown,fails⟩ := grown
      by_cases none' : r = 0
      · obtain ⟨i,few,fails⟩ := fails none' (by omega) high
        have := enough _ (spent.fails fails)
        omega
      obtain ⟨rfl,_,own₂,l₂,built₂,_⟩ := grown none'
      rw [if_neg none',if_neg (not_not.mpr aligned),post_bind,Vm.loaduvm,if_neg (not_not.mpr aligned)]
      refine post_use (loaduvm_from_spec small aligned (by omega) _ (i := 0) built₂ (by rw [PGSIZE_eq]; omega)
        fun _ => by omega) fun loaded m₃ read => ?_
      obtain ⟨_,_,_,_,all⟩ := read
      rw [all inside,if_pos rfl]
      exact ⟨d,m₃,by rw [Nat.zero_max],rfl⟩
  obtain ⟨r,n',ran,d,m',rfl,rfl⟩ := post_returns done
  exact ⟨d,m',ran⟩

end

/-- A program of one segment, which is longer in memory than in the file. -/
def program : Nat → UInt8 := fun i =>
  ([(0,0x7F),(1,0x45),(2,0x4C),(3,0x46),(28,52),(44,1),(52,1),(56,84),(68,4),(73,32),(84,0xEB),(85,0xFE)].lookup i).getD 0

/-- The file with the program is in the cache, and memory has one process and a hundred free pages. -/
def node : Node where
  fs := { boot (fun b => if b = 40 then fun i => program i else fun _ => 0) fun _ => ⟨none,none⟩ with
    icache := fun _ => ⟨1,2,1,some 0,true,⟨T_FILE,0,0,1,88⟩,fun k => if k.val = 0 then 40 else 0⟩ }
  vm := Laid.mach ⟨1,4096,100,fun _ _ => 7,Laid.low_4096,by decide⟩ link

def programFile : Dinode := ⟨⟨T_FILE,0,0,1,88⟩,fun k => if k.val = 0 then 40 else 0⟩

theorem exec_program_safe_segment : ∃ d m' r m₂,
    exec_program link 0 3 node = .ok (.done d ((List.range 52).map program) 8192,{ node with vm := m' }) ∧
    exec_guard link d 8192 m' = .ok (r,m₂) ∧ ∀ sz, r = some sz → peek m₂.mem d 0 = 0xEB ∧ peek m₂.mem d 1 = 0xFE := by
  have whole : Whole node.fs 3 programFile := by
    refine ⟨rfl,by decide,by decide,fun bn inside => ?_⟩
    obtain rfl : bn = 0 := by
      simp only [BSIZE] at inside
      change bn * 512 < 88 at inside
      omega
    decide
  have elves : (readBytes programFile.size.toNat (content node.fs.disk programFile) 0 elfhdrSize).getD [] = (List.range 52).map program := by
    decide
  have headers : header programFile.size.toNat (content node.fs.disk programFile) (word ((List.range 52).map program) 28 4) 0 =
    ⟨1,84,0,4,8192⟩ := by rfl
  obtain ⟨d,m₁,loaded⟩ := exec_program_one (k := link) (p := 0) whole (Laid.sound ..) elves ⟨by decide,by decide⟩
    (by decide) headers (by decide) rfl (by decide) (by decide) (by decide) (by decide) (by decide)
    fun i fails => by rw [Laid.fails fails]; decide
  obtain ⟨r,m',ran,result⟩ := exec_program_safe (k := link) (p := 0) whole (Laid.sound ..)
  rw [loaded] at ran
  cases ran
  obtain ⟨_,_,r,m₂,guarded,segments⟩ := result
  refine ⟨d,m₁,r,m₂,loaded,guarded,fun sz same => ?_⟩
  subst same
  have bytes := segments.2.2.bytes 0 (by decide)
  rw [headers] at bytes
  have last (a j : Nat) (later : 0 < j) (inside : j < word ((List.range 52).map program) 44 2) :
      ¬(header programFile.size.toNat (content node.fs.disk programFile) (word ((List.range 52).map program) 28 4) j).Covers a := by
    have one : word ((List.range 52).map program) 44 2 = 1 := by decide
    omega
  exact ⟨(bytes 0 ⟨rfl,by decide⟩ (last 0)).2,(bytes 1 ⟨rfl,by decide⟩ (last 1)).2⟩

end Xv6.Exec
