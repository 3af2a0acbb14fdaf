import AtomOs.Fs.HeldRefs
import AtomOs.Fs.Sockets

/-!
# Which descriptors the calls give and take

A call that returns a descriptor should return one that was unused, and change no other; a `close`
should make it unused again; a call that fails should change nothing. **`descriptors_allocated`**
says so for the calls on files and, under a condition, for those on sockets: `socket` takes the
first descriptor below -2, which is also standard error, gives a descriptor back as -3, and the
`close` of a socket leaves the descriptor as it is (`socket_takes_stderr`).
-/

namespace AtomOs.Files

open Lib Prog

variable {pid : Nat} {ret : Int}

/-! ## What a call does to the descriptors -/

def SameHandles (pid : Nat) (s t : Fs) : Prop :=
  ∀ i < maxProcFiles, handleAt t (pid, i) = handleAt s (pid, i)

def SameBut (pid fd : Nat) (s t : Fs) : Prop :=
  ∀ i < maxProcFiles, i ≠ fd → handleAt t (pid, i) = handleAt s (pid, i)

/-- The call has failed and left the descriptors alone, or it returns one that was unused, refers to
    something for which `new` holds and is the only one that has changed. -/
def Allocates (pid : Nat) (s t : Fs) (ret : Int) (new : Int → Prop) : Prop :=
  ret < 0 ∧ SameHandles pid s t ∨
    ∃ fd < maxProcFiles, ret = fd ∧ handleAt s (pid, fd) = fhUnused ∧
      new (handleAt t (pid, fd)) ∧ SameBut pid fd s t

/-- A slot of the open file table that was taken between `s` and `t`. -/
def NewSlot (s t : Fs) (h : Int) : Prop :=
  isSlot h ∧ (s.openFileTable h.toNat).flags = fteUnused ∧
    (t.openFileTable h.toNat).flags ≠ fteUnused

/-- A socket that was taken between `s` and `t`. -/
def NewSock (s t : Files) (h : Int) : Prop :=
  isSock h ∧ (s.socktable (sockIndex h)).type = .unused ∧
    (t.socktable (sockIndex h)).type ≠ .unused

/-- What the descriptor `oldfd` refers to. -/
def SameAs (pid oldfd : Nat) (s : Fs) (h : Int) : Prop :=
  oldfd < maxProcFiles ∧ h = handleAt s (pid, oldfd)

theorem SameHandles.of_procs {s t : Fs} (h : t.procs = s.procs) : SameHandles pid s t :=
  fun _ _ => handleAt_of_procs h _

variable {new : Int → Prop} {fd fvn p vn type mode oldfd : Nat} {x r : Int} {a : Unit}
  {path : List Nat} {f g : Fs}

section slots

variable {s t u : Fs}

theorem Allocates.failed (hret : ret < 0) (h : SameFiles s t) :
    Allocates pid s t ret new := .inl ⟨hret, SameHandles.of_procs h.procs⟩

/-- What happened before without touching the table and the processes does not matter. -/
theorem Allocates.after (hsame : SameFiles s u) (h : Allocates pid u t ret (NewSlot u t)) :
    Allocates pid s t ret (NewSlot s t) := by
  have hhan := handleAt_of_procs hsame.procs
  unfold Allocates SameHandles SameBut NewSlot at h ⊢
  rw [hsame.table] at h
  simpa only [hhan] using h

theorem setHandle_sameBut (hrun : setHandle pid fd x s = some (a, t)) :
    handleAt t (pid, fd) = x ∧ SameBut pid fd s t := by
  obtain ⟨-, hhan⟩ := setHandle_spec hrun
  refine ⟨by rw [hhan, if_pos rfl], fun i _ hi => ?_⟩
  rw [hhan, if_neg fun he => hi (congrArg Prod.snd he)]

theorem handleFor_allocates {h : Nat} (hh : h < ftableSize)
    (hfree : (s.openFileTable h).flags = fteUnused) (hfill : SlotFilled s u h fvn)
    (hrun : handleFor pid (some h) u = some (ret, t)) : Allocates pid s t ret (NewSlot s t) := by
  have hhan := handleAt_of_procs hfill.procs
  obtain ⟨hret, _, h2⟩ | ⟨i, rfl, hi, hunused, _, h2⟩ := handleFor_some hrun
  · exact .inl ⟨hret,
      SameHandles.of_procs ((decrementRefCount_spec h2).procs.trans hfill.procs)⟩
  obtain ⟨hnew, hothers⟩ := setHandle_sameBut h2
  refine .inr ⟨i, hi, rfl, (hhan _).symm.trans hunused, ?_, fun j hj hne => ?_⟩
  · rw [hnew]
    refine ⟨⟨by omega, by omega⟩, hfree, ?_⟩
    rw [(setHandle_spec h2).1]
    exact hfill.used
  · rw [hothers j hj hne, hhan]

theorem releaseBoth_failed {q : Nat} (hr : r < 0)
    (hrun : (do releaseVnode p; releaseVnode q; return r : Prog Fs Int) s = some (ret, t)) :
    Allocates pid s t ret new := by
  have hsame := keeps_releaseBoth SameFiles p q r _ _ _ hrun
  simp only [bind_some] at hrun
  obtain ⟨_, _, _, _, _, _, hrun⟩ := hrun
  cases hrun
  exact Allocates.failed hr hsame

theorem releaseOne_failed (hr : r < 0)
    (hrun : (do releaseVnode p; return r : Prog Fs Int) s = some (ret, t)) :
    Allocates pid s t ret new := by
  simp only [bind_some] at hrun
  obtain ⟨_, u, hrel, hrun⟩ := hrun
  cases hrun
  exact Allocates.failed hr (keeps_releaseVnode SameFiles _ _ _ _ hrel)

/-- The end of every call that opens something: a slot is taken and filled in, two vnodes are
    released, and a descriptor is looked for. -/
theorem openSlot_allocates (p q fvn : Nat) {slot : Option Nat}
    (halloc : allocFtabSlot s = some (slot, u))
    (hnone : slot = none →
      (do releaseVnode p; releaseVnode q; return emaxFiles : Prog Fs Int) u = some (ret, t))
    (hsome : ∀ h, slot = some h → ∃ u1, SlotFilled u u1 h fvn ∧
      (do releaseVnode p; releaseVnode q; handleFor pid (some h) : Prog Fs Int) u1 = some (ret, t)) :
    Allocates pid s t ret (NewSlot s t) := by
  rcases allocFtabSlot_spec halloc with ⟨rfl, rfl⟩ | ⟨h, rfl, hh, hfree, rfl⟩
  · exact releaseBoth_failed (by decide) (hnone rfl)
  obtain ⟨u1, hfilled, hrun⟩ := hsome h rfl
  simp only [bind_some] at hrun
  obtain ⟨_, u2, h2, _, u3, h3, hrun⟩ := hrun
  have hfilled3 := (hfilled.of_taken.sameFiles (keeps_releaseVnode SameFiles _ _ _ _ h2)).sameFiles
    (keeps_releaseVnode SameFiles _ _ _ _ h3)
  exact handleFor_allocates hh hfree hfilled3 hrun

theorem openFile_allocates (hrun : openFile pid vn fvn type s = some (ret, t)) :
    Allocates pid s t ret (NewSlot s t) := by
  obtain ⟨-, hrun⟩ := vnode_bind.mp hrun
  split at hrun
  · exact releaseBoth_failed (by decide) hrun
  dsimp only at hrun
  split at hrun
  · exact releaseBoth_failed (by decide) hrun
  obtain ⟨slot, s2, h2, hrun⟩ := bind_some.mp hrun
  refine openSlot_allocates vn fvn fvn h2 ?_ ?_
  · rintro rfl
    exact hrun
  · rintro h rfl
    obtain ⟨_, s3, h3, hrun⟩ := bind_some.mp hrun
    exact ⟨s3, initSlot_filled h3, hrun⟩

theorem creatFile_allocates (hrun : creatFile pid vn fvn s = some (ret, t)) :
    Allocates pid s t ret (NewSlot s t) := by
  obtain ⟨slot, s2, h2, hrun⟩ := bind_some.mp hrun
  refine openSlot_allocates fvn vn fvn h2 ?_ ?_
  · rintro rfl
    exact hrun
  · rintro h rfl
    obtain ⟨_, s3, h3, hrun⟩ := bind_some.mp hrun
    obtain ⟨_, _, hset, hrun⟩ := bind_some.mp hrun
    cases hset
    exact ⟨_, SlotFilled.setFte (keeps_addCount SameFiles _ _ _ _ _ h3) rfl
      (show fteUsed ||| ftflagsChanged ||| ftflagsWrite ||| ftflagsFile ≠ fteUnused from by decide), hrun⟩

theorem openDirectory_allocates (hrun : openDirectory pid vn fvn s = some (ret, t)) :
    Allocates pid s t ret (NewSlot s t) := by
  obtain ⟨-, hrun⟩ := vnode_bind.mp hrun
  obtain ⟨slot, s2, h2, hrun⟩ := bind_some.mp hrun
  refine openSlot_allocates fvn vn fvn h2 ?_ ?_
  · rintro rfl
    exact hrun
  · rintro h rfl
    obtain ⟨_, s3, h3, hrun⟩ := bind_some.mp hrun
    obtain ⟨_, _, hset, hrun⟩ := bind_some.mp hrun
    cases hset
    exact ⟨_, SlotFilled.setFte (keeps_addCount SameFiles _ _ _ _ _ h3) rfl
      (show fteUsed ||| ftflagsDir ≠ fteUnused from by decide), hrun⟩

theorem syscallOpen_allocates (hrun : syscallOpen pid path type mode s = some (ret, t)) :
    Allocates pid s t ret (NewSlot s t) := by
  obtain ⟨rfl, rfl⟩ | ⟨rfl, -, h1⟩ | ⟨vn, fvn, s1, s2, -, -, -, -, hsame2, hrun⟩ :=
    withFile_some hrun
  · exact Allocates.failed (by decide) (SameFiles.refl _)
  · exact Allocates.failed (by decide) (keeps_openDirPart SameFiles _ _ _ _ _ h1)
  split at hrun
  · exact (openFile_allocates hrun).after hsame2
  split at hrun
  · obtain ⟨fvn', s3, h3, hrun⟩ := bind_some.mp hrun
    have hsame3 := hsame2.trans (keeps_fat12VopCreate SameFiles _ _ _ _ _ _ h3)
    split at hrun
    · exact (releaseOne_failed (by decide) hrun).after hsame3
    · exact (openFile_allocates hrun).after hsame3
  · exact (releaseOne_failed (by decide) hrun).after hsame2

theorem syscallCreat_allocates (hrun : syscallCreat pid path mode s = some (ret, t)) :
    Allocates pid s t ret (NewSlot s t) := by
  obtain ⟨rfl, rfl⟩ | ⟨rfl, -, h1⟩ | ⟨vn, fvn, s1, s2, -, -, -, -, hsame2, hrun⟩ :=
    withFile_some hrun
  · exact Allocates.failed (by decide) (SameFiles.refl _)
  · exact Allocates.failed (by decide) (keeps_openDirPart SameFiles _ _ _ _ _ h1)
  split at hrun
  · obtain ⟨-, hrun⟩ := vnode_bind.mp hrun
    split at hrun
    · exact (releaseBoth_failed (by decide) hrun).after hsame2
    · obtain ⟨_, s4, h4, hrun⟩ := bind_some.mp hrun
      exact (creatFile_allocates hrun).after
        (hsame2.trans (keeps_fat12VopTrunc SameFiles _ _ _ _ h4))
  · obtain ⟨fvn', s3, h3, hrun⟩ := bind_some.mp hrun
    have hsame3 := hsame2.trans (keeps_fat12VopCreate SameFiles _ _ _ _ _ _ h3)
    split at hrun
    · exact (releaseOne_failed (by decide) hrun).after hsame3
    · exact (creatFile_allocates hrun).after hsame3

theorem syscallOpendir_allocates {r : Option Int} (hrun : syscallOpendir pid path s = some (r, t)) :
    Allocates pid s t (r.getD (-1)) (NewSlot s t) := by
  have hfail : ∀ {u : Fs}, SameFiles s u → Allocates pid s u ((none : Option Int).getD (-1))
      (NewSlot s u) := fun hsame => Allocates.failed (by decide) hsame
  unfold syscallOpendir at hrun
  split at hrun
  · cases hrun
    exact hfail (SameFiles.refl _)
  obtain ⟨vn, s1, h1, hrun⟩ := bind_some.mp hrun
  have hsame1 := keeps_openDirPart SameFiles _ _ _ _ _ h1
  split at hrun
  · cases hrun
    exact hfail hsame1
  obtain ⟨fvn, s2, h2, hrun⟩ := bind_some.mp hrun
  have hsame2 := hsame1.trans (keeps_fat12VopLookup SameFiles _ _ _ _ _ h2)
  split at hrun
  · obtain ⟨_, s3, h3, hrun⟩ := bind_some.mp hrun
    cases hrun
    exact hfail (hsame2.trans (keeps_releaseVnode SameFiles _ _ _ _ h3))
  obtain ⟨-, hrun⟩ := vnode_bind.mp hrun
  split at hrun
  · obtain ⟨fd, s4, h4, hrun⟩ := bind_some.mp hrun
    cases hrun
    exact (openDirectory_allocates h4).after hsame2
  simp only [bind_some] at hrun
  obtain ⟨_, s4, h4, _, s5, h5, hrun⟩ := hrun
  cases hrun
  exact hfail ((hsame2.trans (keeps_releaseVnode SameFiles _ _ _ _ h4)).trans
    (keeps_releaseVnode SameFiles _ _ _ _ h5))

end slots

/-! ## Both kinds -/

section calls

variable {s t u : Files}

theorem onFs_some {α : Type} {m : Prog Fs α} {a : α} (h : onFs m s = some (a, t)) :
    m s.toFs = some (a, t.toFs) ∧ t.socktable = s.socktable := by
  obtain ⟨⟨b, f⟩, hm, he⟩ := Option.map_eq_some_iff.mp h
  obtain ⟨rfl, rfl⟩ := Prod.mk.inj he
  exact ⟨hm, rfl⟩

theorem lockSocklist_some (hrun : lockSocklist s = some (a, t)) :
    s.socklistLocked = false ∧ t = { s with socklistLocked := true } := by
  unfold lockSocklist at hrun
  rw [get_bind] at hrun
  split at hrun
  · cases hrun
  · rename_i hfree
    cases hrun
    exact ⟨by simpa using hfree, rfl⟩

theorem incrementRefCount_procs {h : Int} (hrun : incrementRefCount h s = some (a, t)) :
    t.procs = s.procs := by
  unfold incrementRefCount at hrun
  split at hrun
  · exact (incrementRefCount_spec (onFs_some hrun).1).procs
  · unfold incrementSockrefCount at hrun
    split at hrun <;> (cases hrun; rfl)

theorem shared_allocates {i : Nat} {b : Unit} (hold : oldfd < maxProcFiles)
    (hi : i < maxProcFiles) (hunused : handleAt s.toFs (pid, i) = fhUnused)
    (hset : onFs (setHandle pid i (handleAt s.toFs (pid, oldfd))) s = some (a, u))
    (hinc : incrementRefCount x u = some (b, t)) :
    Allocates pid s.toFs t.toFs i (SameAs pid oldfd s.toFs) := by
  obtain ⟨hnew, hothers⟩ := setHandle_sameBut (onFs_some hset).1
  have hhan := handleAt_of_procs (incrementRefCount_procs hinc)
  refine .inr ⟨i, hi, rfl, hunused, ⟨hold, (hhan _).trans hnew⟩, fun j hj hne => ?_⟩
  rw [hhan, hothers j hj hne]

theorem syscallDup_allocates (hrun : syscallDup pid oldfd s = some (ret, t)) :
    Allocates pid s.toFs t.toFs ret (SameAs pid oldfd s.toFs) := by
  unfold syscallDup at hrun
  rw [get_bind] at hrun
  split at hrun
  · cases hrun
    exact .inl ⟨by decide, fun _ _ => rfl⟩
  rename_i hvalid
  simp only [not_or, not_le] at hvalid
  cases hfh : freeHandle (s.procs pid) with
  | none =>
    rw [hfh] at hrun
    cases hrun
    exact .inl ⟨by decide, fun _ _ => rfl⟩
  | some i =>
    rw [hfh] at hrun
    simp only [bind_some] at hrun
    obtain ⟨_, u, h1, _, v, h2, hrun⟩ := hrun
    cases hrun
    obtain ⟨hi, hunused⟩ := freeHandle_some hfh
    exact shared_allocates hvalid.1 hi hunused h1 h2

theorem syscallDup2_allocates {newfd : Nat} (hok : oldfd < maxProcFiles → newfd < maxProcFiles →
      fhUnused < handleAt s.toFs (pid, oldfd) → handleAt s.toFs (pid, newfd) = fhUnused)
    (hrun : syscallDup2 pid oldfd newfd s = some (ret, t)) :
    Allocates pid s.toFs t.toFs ret (SameAs pid oldfd s.toFs) := by
  unfold syscallDup2 at hrun
  rw [get_bind] at hrun
  split at hrun
  · cases hrun
    exact .inl ⟨by decide, fun _ _ => rfl⟩
  rename_i hvalid
  simp only [not_or, not_le] at hvalid
  have hnewfd := hok hvalid.1 hvalid.2.1 hvalid.2.2
  rw [if_neg (by rw [show (s.procs pid).fhandles newfd = fhUnused from hnewfd]; decide)] at hrun
  obtain ⟨_, _, hget, hrun⟩ := bind_some.mp hrun
  cases hget
  simp only [bind_some] at hrun
  obtain ⟨_, u, h1, _, v, h2, hrun⟩ := hrun
  cases hrun
  exact shared_allocates hvalid.1 hvalid.2.1 hnewfd h1 h2

def ValuesOk (pid : Nat) (s : Fs) : Prop :=
  ∀ i < maxProcFiles, fhUnused ≤ handleAt s (pid, i) ∧ handleAt s (pid, i) < sockHandleEnd

/-- If there is an unused socket, an unused descriptor comes before standard error; if there is none,
    standard error comes before the unused descriptors. -/
def SocketOk (pid : Nat) (s : Files) : Prop :=
  ((∃ j < maxSockets, (s.socktable j).type = .unused) → ∀ i < maxProcFiles,
    handleAt s.toFs (pid, i) = -3 → ∃ j < i, handleAt s.toFs (pid, j) = fhUnused) ∧
  ((¬ ∃ j < maxSockets, (s.socktable j).type = .unused) → ∀ i < maxProcFiles,
    handleAt s.toFs (pid, i) = fhUnused → ∃ j < i, handleAt s.toFs (pid, j) = -3)

instance (s : Files) : Decidable (SocketOk pid s) := inferInstanceAs (Decidable (_ ∧ _))

/-- **`socket` returns an unused descriptor**, where that comes first. -/
theorem syscallSocket_allocates {type : SockType} (hvals : ValuesOk pid s.toFs)
    (hok : SocketOk pid s) (hrun : syscallSocket pid type s = some (ret, t)) :
    Allocates pid s.toFs t.toFs ret (NewSock s t) ∧
      (0 ≤ ret → isSock (handleAt t.toFs (pid, ret.toNat))) := by
  unfold syscallSocket at hrun
  rw [get_bind] at hrun
  cases hfind : (List.range maxProcFiles).find? fun i => (s.procs pid).fhandles i < -2 with
  | none =>
    rw [hfind] at hrun
    cases hrun
    exact ⟨.inl ⟨by decide, fun _ _ => rfl⟩, fun h => absurd h (by decide)⟩
  | some fd =>
    rw [hfind] at hrun
    obtain ⟨hlow, hmem, hfirst⟩ := List.find?_range_eq_some.mp hfind
    have hfd : fd < maxProcFiles := by simpa using hmem
    have hlow : handleAt s.toFs (pid, fd) < -2 := by simpa [handleAt] using hlow
    have hfirst : ∀ j < fd, ¬ handleAt s.toFs (pid, j) < -2 := by
      intro j hj
      simpa [handleAt] using hfirst j hj
    have hbound := (hvals fd hfd).1
    obtain ⟨_, s1, h1, hrun⟩ := bind_some.mp hrun
    obtain ⟨-, hothers1⟩ := setHandle_sameBut (onFs_some h1).1
    cases hsock : (List.range maxSockets).find? fun j => (s.socktable j).type = .unused with
    | none =>
      -- the descriptor is given back as standard error, which it was
      rw [hsock] at hrun
      have hno : ¬ ∃ j < maxSockets, (s.socktable j).type = .unused := by
        rintro ⟨j, hj, hu⟩
        have := List.find?_eq_none.mp hsock j (by simpa using hj)
        simp [hu] at this
      have hthree : handleAt s.toFs (pid, fd) = -3 := by
        by_contra hne
        obtain ⟨j, hj, hj3⟩ := hok.2 hno fd hfd (by unfold fhUnused at hbound ⊢; omega)
        exact hfirst j hj (by omega)
      obtain ⟨_, s2, h2, hrun⟩ := bind_some.mp hrun
      cases hrun
      obtain ⟨hset, hothers2⟩ := setHandle_sameBut (onFs_some h2).1
      refine ⟨.inl ⟨by decide, fun i hi => ?_⟩, fun h => absurd h (by decide)⟩
      by_cases hi' : i = fd
      · rw [hi', hset, hthree]
      · rw [hothers2 i hi hi', hothers1 i hi hi']
    | some j =>
      rw [hsock] at hrun
      have hj : j < maxSockets := by simpa using List.mem_of_find?_eq_some hsock
      have hju : (s.socktable j).type = .unused := by simpa using List.find?_some hsock
      have hfour : handleAt s.toFs (pid, fd) = fhUnused := by
        by_contra hne
        obtain ⟨i, hi, hi4⟩ := hok.1 ⟨j, hj, hju⟩ fd hfd (by unfold fhUnused at hbound hne; omega)
        exact hfirst i hi (by unfold fhUnused at hi4; omega)
      simp only [bind_some] at hrun
      obtain ⟨_, s2, h2, _, s3, h3, _, s4, h4, _, s5, h5, hrun⟩ := hrun
      cases hrun
      cases h3
      obtain ⟨-, rfl⟩ := lockSocklist_some h4
      cases h5
      obtain ⟨hset, hothers2⟩ := setHandle_sameBut (onFs_some h2).1
      have hindex : sockIndex ((j : Int) + ftableSize) = j := by
        unfold sockIndex
        omega
      have hisSock : isSock ((j : Int) + ftableSize) := by
        unfold isSock sockHandleEnd ftableSize
        unfold maxSockets at hj
        omega
      refine ⟨.inr ⟨fd, hfd, rfl, hfour, ?_, fun i hi hne => ?_⟩, fun _ => ?_⟩
      · show NewSock s _ (handleAt s2.toFs (pid, fd))
        rw [hset]
        refine ⟨hisSock, ?_, ?_⟩
        · rw [hindex]
          exact hju
        · rw [hindex]
          show (Function.update s2.socktable j _ j).type ≠ .unused
          rw [Function.update_self]
          split <;> simp
      · exact (hothers2 i hi hne).trans (hothers1 i hi hne)
      · show isSock (handleAt s2.toFs (pid, (fd : Int).toNat))
        rw [Int.toNat_natCast, hset]
        exact hisSock

/-- The network gives `accept` whole messages or errors, and takes the reply if there is a request;
    and `socket` may be called then. -/
def AcceptOk (pid : Nat) (s : Files) (sent : Int) : Option (Except Int (Int × Int)) → Prop
  | none => True
  | some (.error err) => err < 0
  | some (.ok _) => SocketOk pid s ∧ sent = sizeofConnectRequest

instance (s : Files) (sent : Int) (r : Option (Except Int (Int × Int))) :
    Decidable (AcceptOk pid s sent r) :=
  match r with
  | none => inferInstanceAs (Decidable True)
  | some (.error err) => inferInstanceAs (Decidable (err < 0))
  | some (.ok _) => inferInstanceAs (Decidable (SocketOk pid s ∧ sent = sizeofConnectRequest))

theorem syscallAccept_allocates {sd : Nat} {net : Incoming} (hvals : ValuesOk pid s.toFs)
    (hok : AcceptOk pid s net.sent (awaitRequest net.received))
    (hrun : syscallAccept pid sd net s = some (ret, t)) :
    Allocates pid s.toFs t.toFs ret (NewSock s t) := by
  unfold syscallAccept at hrun
  rw [get_bind] at hrun
  -- every exit before the new socket leaves all as it was
  have hout : ∀ {r : Int}, r < 0 → (pure r : Prog Files Int) s = some (ret, t) →
      Allocates pid s.toFs t.toFs ret (NewSock s t) := by
    intro r hr h
    cases h
    exact .inl ⟨hr, fun _ _ => rfl⟩
  split at hrun
  · exact hout (by decide) hrun
  split at hrun
  swap
  · exact hout (by decide) hrun
  simp only at hrun
  split at hrun
  · exact hout (by decide) hrun
  split at hrun
  · exact hout (by decide) hrun
  cases hawait : awaitRequest net.received with
  | none =>
    rw [hawait] at hrun
    cases hrun
  | some r =>
    cases r with
    | error err =>
      rw [hawait] at hrun hok
      exact hout hok hrun
    | ok src =>
      rw [hawait] at hrun hok
      obtain ⟨s1, u, hsocket, hrun⟩ := bind_some.mp hrun
      obtain ⟨halloc, hisSock⟩ := syscallSocket_allocates hvals hok.1 hsocket
      split at hrun
      · cases hrun
        exact halloc
      rename_i hpos
      simp only [get_bind, bind_some] at hrun
      obtain ⟨_, _, hset, _, _, hlock, _, _, hunlock, hrun⟩ := hrun
      cases hset
      obtain ⟨-, rfl⟩ := lockSocklist_some hlock
      cases hunlock
      rw [if_neg (by simp [hok.2])] at hrun
      cases hrun
      rcases halloc with ⟨hneg, -⟩ | ⟨fd, hfd, rfl, hunused, hnew, hothers⟩
      · exact absurd hneg hpos
      refine .inr ⟨fd, hfd, rfl, hunused, ⟨hnew.1, hnew.2.1, ?_⟩, hothers⟩
      have htype := hnew.2.2
      show (Function.update u.socktable _ _ (sockIndex (handleAt u.toFs (pid, fd)))).type ≠ _
      show (Function.update u.socktable (sockIndex (handleAt u.toFs (pid, fd))) _
        (sockIndex (handleAt u.toFs (pid, fd)))).type ≠ _
      rw [Function.update_self]
      exact htype

/-- The `close` of a descriptor that is not a socket makes it unused, if it was open. -/
theorem syscallClose_frees (hvals : ValuesOk pid s.toFs)
    (hok : fd < maxProcFiles → ¬ isSock (handleAt s.toFs (pid, fd)))
    (hrun : syscallClose pid fd s = some (ret, t)) :
    (ret < 0 ∧ (fd < maxProcFiles → handleAt s.toFs (pid, fd) < 0) ∧ SameHandles pid s.toFs t.toFs) ∨
      (ret = 0 ∧ fd < maxProcFiles ∧ handleAt t.toFs (pid, fd) = fhUnused ∧
        SameBut pid fd s.toFs t.toFs) := by
  unfold syscallClose at hrun
  rw [get_bind] at hrun
  rw [if_neg fun h => hok h.1 h.2] at hrun
  obtain ⟨hrun, -⟩ := onFs_some hrun
  obtain ⟨rfl, hfd, -, -, hhan⟩ | ⟨hslot, hst, hret⟩ := syscallClose_some hrun
  · refine .inr ⟨rfl, hfd, by rw [hhan, if_pos rfl], fun i _ hne => ?_⟩
    rw [hhan, if_neg fun he => hne (congrArg Prod.snd he)]
  obtain rfl := hret.resolve_right fun hsock => hok hsock.1 hsock.2
  refine .inl ⟨by decide, fun hfd => ?_, ?_⟩
  · have hbound := hvals fd hfd
    have hsock := hok hfd
    unfold isSlot at hslot
    unfold isSock at hsock
    omega
  · rw [hst]
    exact fun _ _ => rfl

end calls

/-! ## Runs -/

/-- The calls of one process that give or take descriptors. What the rest of the system does between
    them is a step to any state with the same descriptors of this process. -/
inductive DescOp
  | «open» (path : List Nat) (type mode : Nat)
  | creat (path : List Nat) (mode : Nat)
  | opendir (path : List Nat)
  | dup (oldfd : Nat)
  | dup2 (oldfd newfd : Nat)
  | socket (type : SockType)
  | accept (sd : Nat) (net : Incoming)
  | close (fd : Nat)
  | others (t : Files)

/-- What a call does, and its result; for `opendir` that is the descriptor in the `DIR`. -/
def DescOp.call (pid : Nat) : DescOp → Prog Files Int
  | .open path type mode => onFs (syscallOpen pid path type mode)
  | .creat path mode => onFs (syscallCreat pid path mode)
  | .opendir path => onFs do return (← syscallOpendir pid path).getD (-1)
  | .dup oldfd => syscallDup pid oldfd
  | .dup2 oldfd newfd => syscallDup2 pid oldfd newfd
  | .socket type => syscallSocket pid type
  | .accept sd net => syscallAccept pid sd net
  | .close fd => syscallClose pid fd
  | .others t => fun s =>
    if ∀ i < maxProcFiles, handleAt t.toFs (pid, i) = handleAt s.toFs (pid, i) then some (0, t)
    else none

def descStep (pid : Nat) (s : Files) (op : DescOp) : Option Files :=
  (op.call pid s).map Prod.snd

/-- What the call should do to the descriptors. -/
def Meets (pid : Nat) (s : Files) (op : DescOp) (ret : Int) (t : Files) : Prop :=
  match op with
  | .open .. | .creat .. | .opendir .. => Allocates pid s.toFs t.toFs ret (NewSlot s.toFs t.toFs)
  | .dup oldfd | .dup2 oldfd _ =>
    Allocates pid s.toFs t.toFs ret (SameAs pid oldfd s.toFs)
  | .socket .. | .accept .. => Allocates pid s.toFs t.toFs ret (NewSock s t)
  | .close fd =>
    (ret < 0 ∧ (fd < maxProcFiles → handleAt s.toFs (pid, fd) < 0) ∧ SameHandles pid s.toFs t.toFs) ∨
      (ret = 0 ∧ fd < maxProcFiles ∧ handleAt t.toFs (pid, fd) = fhUnused ∧
        SameBut pid fd s.toFs t.toFs)
  | .others _ => SameHandles pid s.toFs t.toFs

/-- `dup2` is called with an unused descriptor, `close` with one that is not a socket, and `socket`
    and `accept` when they take an unused descriptor and do not have to give it back. -/
def DescOk (pid : Nat) (s : Files) : DescOp → Prop
  | .dup2 oldfd newfd => oldfd < maxProcFiles → newfd < maxProcFiles →
      fhUnused < handleAt s.toFs (pid, oldfd) → handleAt s.toFs (pid, newfd) = fhUnused
  | .socket _ => SocketOk pid s
  | .accept _ net => AcceptOk pid s net.sent (awaitRequest net.received)
  | .close fd => fd < maxProcFiles → ¬ isSock (handleAt s.toFs (pid, fd))
  | .open .. | .creat .. | .opendir .. | .dup .. | .others _ => True

instance (s : Files) (op : DescOp) : Decidable (DescOk pid s op) :=
  match op with
  | .dup2 .. => inferInstanceAs (Decidable (_ → _ → _ → _))
  | .socket _ => inferInstanceAs (Decidable (SocketOk pid s))
  | .accept _ _ => inferInstanceAs (Decidable (AcceptOk pid s _ _))
  | .close _ => inferInstanceAs (Decidable (_ → _))
  | .open .. | .creat .. | .opendir .. | .dup .. | .others _ => inferInstanceAs (Decidable True)

section runs

variable {s t u : Files} {op : DescOp}

theorem call_meets (hvals : ValuesOk pid s.toFs) (hok : DescOk pid s op)
    (hrun : op.call pid s = some (ret, t)) : Meets pid s op ret t := by
  cases op with
  | «open» path type mode => exact syscallOpen_allocates (onFs_some hrun).1
  | creat path mode => exact syscallCreat_allocates (onFs_some hrun).1
  | opendir path =>
    obtain ⟨r, u, h1, hrun⟩ := bind_some.mp (onFs_some hrun).1
    cases hrun
    exact syscallOpendir_allocates h1
  | dup oldfd => exact syscallDup_allocates hrun
  | dup2 oldfd newfd => exact syscallDup2_allocates hok hrun
  | socket type => exact (syscallSocket_allocates hvals hok hrun).1
  | accept sd net => exact syscallAccept_allocates hvals hok hrun
  | close fd => exact syscallClose_frees hvals hok hrun
  | others t' =>
    simp only [DescOp.call] at hrun
    split at hrun
    · rename_i hsame
      cases hrun
      exact hsame
    · cases hrun

theorem ValuesOk.set (h : ValuesOk pid f) (hsame : SameBut pid fd f g)
    (hnew : fhUnused ≤ handleAt g (pid, fd) ∧ handleAt g (pid, fd) < sockHandleEnd) :
    ValuesOk pid g := by
  intro i hi
  by_cases hi' : i = fd
  · rw [hi']
    exact hnew
  · rw [hsame i hi hi']
    exact h i hi

theorem ValuesOk.allocates (h : ValuesOk pid f) (hall : Allocates pid f g ret new)
    (hnew : ∀ x, new x → fhUnused ≤ x ∧ x < sockHandleEnd) : ValuesOk pid g := by
  rcases hall with ⟨-, hsame⟩ | ⟨fd, hfd, -, -, hx, hsame⟩
  · intro i hi
    rw [hsame i hi]
    exact h i hi
  · exact h.set hsame (hnew _ hx)

theorem ValuesOk.call (h : ValuesOk pid s.toFs) (hmeets : Meets pid s op ret t) :
    ValuesOk pid t.toFs := by
  have hold : ∀ oldfd x, SameAs pid oldfd s.toFs x → fhUnused ≤ x ∧ x < sockHandleEnd := by
    rintro oldfd x ⟨hlt, rfl⟩
    exact h oldfd hlt
  have hsame : SameHandles pid s.toFs t.toFs → ValuesOk pid t.toFs := by
    intro hsame i hi
    rw [hsame i hi]
    exact h i hi
  have hslot : ∀ x, NewSlot s.toFs t.toFs x → fhUnused ≤ x ∧ x < sockHandleEnd := by
    intro x hx
    obtain ⟨hlo, hhi⟩ := hx.1
    unfold fhUnused sockHandleEnd
    unfold ftableSize at hhi
    omega
  have hsock : ∀ x, NewSock s t x → fhUnused ≤ x ∧ x < sockHandleEnd := by
    intro x hx
    obtain ⟨hlo, hhi⟩ := hx.1
    unfold fhUnused
    omega
  cases op with
  | «open» path type mode => exact h.allocates hmeets hslot
  | creat path mode => exact h.allocates hmeets hslot
  | opendir path => exact h.allocates hmeets hslot
  | socket type => exact h.allocates hmeets hsock
  | accept sd net => exact h.allocates hmeets hsock
  | dup oldfd => exact h.allocates hmeets (hold oldfd)
  | dup2 oldfd newfd => exact h.allocates hmeets (hold oldfd)
  | close fd =>
    rcases hmeets with ⟨-, -, hkept⟩ | ⟨-, -, hnew, hothers⟩
    · exact hsame hkept
    · exact h.set hothers (by rw [hnew]; decide)
  | others t' => exact hsame hmeets

/-- **In every run of calls that meet the condition, every call that returns does to the descriptors
    what it should.** -/
theorem descriptors_allocated (h : ValuesOk pid s.toFs)
    (hrun : Reaches (descStep pid) (DescOk pid) s t) (hok : DescOk pid t op)
    (hcall : op.call pid t = some (ret, u)) : Meets pid t op ret u := by
  have hvals : ValuesOk pid t.toFs := by
    refine hrun.invariant (fun s => ValuesOk pid s.toFs) h ?_
    intro s t a hs hok hstep
    obtain ⟨⟨r, v⟩, hv, rfl⟩ := Option.map_eq_some_iff.mp hstep
    exact hs.call (call_meets hs hok hv)
  exact call_meets hvals hok hcall

end runs

/-! ## Examples -/

/-- A file system with no files and no sockets in use; the descriptors of all processes are `fds`. -/
def idle (fds : Nat → Int) : Files where
  toFs := { mountroot (fun _ => 0) fun _ => Bytes.zero with procs := fun _ => ⟨1, 1, fds⟩ }
  socktable _ := ⟨.unused, 0, 0, 0, 0, false, false⟩
  thisHostid := 1
  socklistLocked := false

/-- A process without a terminal creates a socket, duplicates it, and creates another one. -/
theorem descriptors_allocated_sockets : ∃ t u,
    Reaches (descStep 0) (DescOk 0) (idle fun _ => fhUnused) t ∧
    (DescOp.socket .stream).call 0 t = some (2, u) ∧ Meets 0 t (.socket .stream) 2 u ∧
    handleAt u.toFs (0, 2) = 101 := by
  have hvals : ValuesOk 0 (idle fun _ => fhUnused).toFs :=
    fun _ _ => show fhUnused ≤ fhUnused ∧ fhUnused < sockHandleEnd from by decide
  obtain ⟨t, hrun, hok, ⟨_, u⟩, hcall, rfl, hnew⟩ : ∃ t ∈ runOps (descStep 0) (DescOk 0)
      (idle fun _ => fhUnused) [.socket .dgram, .dup 0], DescOk 0 t (.socket .stream) ∧
        ∃ r ∈ (DescOp.socket .stream).call 0 t, r.1 = 2 ∧ handleAt r.2.toFs (0, 2) = 101 := by
    decide +kernel
  have hreach := reaches_of_runOps hrun
  exact ⟨t, u, hreach, hcall, descriptors_allocated hvals hreach hok hcall, hnew⟩

/-- **A process with the usual descriptors creates a socket, duplicates it and closes the new
    descriptor.** `socket` returns standard error, which is not unused, and after the `close` the
    descriptor still is the socket. Closing the last one, too, never comes back. -/
theorem socket_takes_stderr : let s := idle fun fd => if fd < 3 then -1 - fd else fhUnused
    ∃ t u v, (DescOp.socket .stream).call 0 s = some (2, t) ∧ handleAt s.toFs (0, 2) = -3 ∧
      handleAt t.toFs (0, 2) = 100 ∧ ¬ Meets 0 s (.socket .stream) 2 t ∧
      (DescOp.dup 2).call 0 t = some (3, u) ∧ (DescOp.close 3).call 0 u = some (0, v) ∧
      handleAt v.toFs (0, 3) = 100 ∧ ¬ Meets 0 u (.close 3) 0 v ∧ (DescOp.close 2).call 0 v = none := by
  intro s
  obtain ⟨⟨_, t⟩, hsocket, rfl, ht, ⟨_, u⟩, hdup, rfl, ⟨_, v⟩, hclose, rfl, hv, hlast⟩ :
      ∃ r ∈ (DescOp.socket .stream).call 0 s, r.1 = 2 ∧ handleAt r.2.toFs (0, 2) = 100 ∧
        ∃ q ∈ (DescOp.dup 2).call 0 r.2, q.1 = 3 ∧ ∃ p ∈ (DescOp.close 3).call 0 q.2, p.1 = 0 ∧
          handleAt p.2.toFs (0, 3) = 100 ∧ ((DescOp.close 2).call 0 p.2).isNone := by
    decide +kernel
  refine ⟨t, u, v, hsocket, rfl, ht, ?_, hdup, hclose, hv, ?_, Option.isNone_iff_eq_none.mp hlast⟩
  · rintro (⟨hneg, -⟩ | ⟨fd, -, hfd, hunused, -⟩)
    · exact absurd hneg (by decide)
    · obtain rfl : fd = 2 := by omega
      exact absurd hunused (by decide +kernel)
  · rintro (⟨hneg, -⟩ | ⟨-, -, hunused, -⟩)
    · exact absurd hneg (by decide)
    · rw [hv] at hunused
      exact absurd hunused (by decide)

end AtomOs.Files
