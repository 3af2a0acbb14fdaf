import AtomOs.Fs.Counts
import AtomOs.Fs.FileTable

/-!
# Counts of vnodes over path operations

The calls do not balance references on all paths. `lookup_path` takes two references to each
directory and gives one back before it goes on; the other one is meant for the child. That is right
if the lookup has brought the child to life, and one too many if the child was alive, if the
component is `..` or if there is no such entry. The lookup of the last component takes nothing for the
child, which is one too few if it has brought it to life. So every call is exact on a path whose
directories are all brought to life by the call and whose last component is not (`PathOk`):
**`findFile_refs`**.
-/

namespace AtomOs

open Lib Prog

/-! ## Paths on which references balance -/

def startDir (s : Fs) (pid : Nat) (path : List Nat) : Nat :=
  if path.head?.any isSeparator then (s.procs pid).rootDir else (s.procs pid).currentDir

/-- A path without its leading separator. -/
def relPath (path : List Nat) : List Nat := if path.head?.any isSeparator then path.tail else path

/-- The entry of the directory a path leads to, if all its components are `.` or entries without a
    live vnode. It comes with whether that is still the first directory. Below a directory that
    is not alive nothing is, so only the first entry's vnode is looked at. -/
def seekDir (s : Fs) (d : Nat) : Nat → List Nat → Bool → Bytes → Option (Bool × Bytes)
  | 0, _, _, _ => none
  | fuel + 1, path, atStart, dent =>
    if path = [] then some (atStart, dent)
    else
      let (name, rest) := nextComponent path
      if name = nameDot then seekDir s d fuel rest atStart dent
      else if name = nameDotDot then none
      else
        match entryOf s.toVolume dent name with
        | none => none
        | some e =>
          if atStart && entryLive s d e then none else seekDir s d fuel rest false e.dent

def seekPath (s : Fs) (pid : Nat) (path : List Nat) : Option (Bool × Bytes) :=
  seekDir s (startDir s pid path) ((relPath path).length + 1) (relPath path) true
    (s.vnodes (startDir s pid path)).data

/-- There is memory for the vnodes that are brought to life. -/
def Roomy (s : Fs) (atStart : Bool) : Prop := atStart = true ∨ ∀ p, s.noMem p = false

/-- The directories of the path are brought to life by the call, and its last component is not: it
    is `..`, has a live vnode, or is missing, where that may be. -/
def PathOk (s : Fs) (pid : Nat) (path : List Nat) (mayMiss : Bool) : Prop :=
  ∃ atStart dent, seekPath s pid (parsePath path).1 = some (atStart, dent) ∧ Roomy s atStart ∧
    (parsePath path).2 ≠ nameDot ∧
      ((parsePath path).2 = nameDotDot ∨
        match entryOf s.toVolume dent (parsePath path).2 with
        | none => mayMiss = true
        | some e => atStart = true ∧ entryLive s (startDir s pid (parsePath path).1) e = true)

variable {e : ReadEntry} {b mayMiss : Bool} {dent : Bytes} {vn p : Nat} {s₁ : Fs} {r : Int}

section walk

variable {s u t : Fs} {R : Multiset Nat} {cur d ret : Nat}

theorem Refs.childless (h : Refs u R) (hcur : cur ≠ 0) (hcount : (u.vnodes cur).count = R.count cur)
    (e : ReadEntry) : entryLive u cur e = false := by
  unfold entryLive
  cases hfind : vnodeFor u cur e with
  | none => rfl
  | some p =>
    have hkey := List.find?_some hfind
    simp only [Vnode.hasKey, Bool.and_eq_true, beq_iff_eq] at hkey
    rw [Option.any_some, decide_eq_false_iff_not]
    intro hlive
    have heq := h.counted.count_eq cur (Nat.pos_of_ne_zero hcur)
    have hmem : p ∈ liveChildren (fun q => (u.vnodes q).parent) (fun q => (u.vnodes q).count)
        u.nextVnode cur :=
      mem_liveChildren.mpr ⟨(h.counted.older p hlive).2, hlive, hkey.1.2⟩
    have hpos := Finset.card_pos.mpr ⟨p, hmem⟩
    omega

/-- Counting `d` once more or less does not bring an entry of it to life. -/
theorem entryLive_withCount (h : Refs s R) (hd : 0 < (s.vnodes d).count) (k : Nat) (e : ReadEntry) :
    entryLive (s.withCount d k) d e = entryLive s d e := by
  have hdev : ((s.withCount d k).vnodes d).dev = (s.vnodes d).dev := by
    rw [Fs.withCount, Fs.setVnode_vnodes, if_pos rfl]
  have hfor : vnodeFor (s.withCount d k) d e = vnodeFor s d e := by
    unfold vnodeFor
    rw [hdev]
    simp only [withCount_hasKey]
    rfl
  unfold entryLive
  rw [hfor]
  cases hfind : vnodeFor s d e with
  | none => rfl
  | some p =>
    have hkey := List.find?_some hfind
    simp only [Vnode.hasKey, Bool.and_eq_true, beq_iff_eq] at hkey
    have hne : p ≠ d := by
      intro hpd
      have hpar := hkey.1.2
      rw [hpd] at hpar
      exact absurd (h.counted.older d hd).1 (by omega)
    rw [Option.any_some, Option.any_some, withCount_ne hne]

/-- What `lookup_path` has done when it returns `ret`, along directories it has brought to life. -/
structure DirFound (s t : Fs) (R : Multiset Nat) (ret : Nat) (dent : Bytes) : Prop where
  ne_zero : ret ≠ 0
  refs : Refs t (ret ::ₘ R)
  data : (t.vnodes ret).data = dent
  volume : t.toVolume = s.toVolume

/-- One component of the walk: the directory `cur`, held twice, gives way to the entry's vnode, held
    twice. -/
theorem walk_fresh {name : List Nat} {u1 u2 u3 : Fs} {new : Nat} {a b : Unit}
    (hdot : name ≠ nameDot) (hdotdot : name ≠ nameDotDot)
    (he : entryOf u.toVolume (u.vnodes cur).data name = some e)
    (h : Refs u (cur ::ₘ cur ::ₘ R)) (hR : (cur ::ₘ cur ::ₘ R).card ≤ refsMax)
    (hcur : 1 < (u.vnodes cur).count) (hdead : entryLive u cur e = false)
    (hmem : u.noMem u.nextVnode = false) (h1 : fat12VopLookup cur name u = some (new, u1))
    (h2 : releaseVnode cur u1 = some (a, u2)) (h3 : addCount new 1 u2 = some (b, u3)) :
    new ≠ 0 ∧ Refs u3 (new ::ₘ new ::ₘ R) ∧ (u3.vnodes new).count = 2 ∧
      (u3.vnodes new).data = e.dent ∧ u3.toVolume = u.toVolume := by
  obtain ⟨hnew, hpar, hdata, hrefs, hwoken⟩ :=
    lookup_fresh hdot hdotdot he h (by omega) hdead hmem h1
  simp only [Multiset.card_cons] at hR
  have hne : cur ≠ new := by
    have := (hrefs.counted.older new (by rw [hwoken.count]; decide)).1
    omega
  rw [Multiset.cons_swap] at hrefs
  obtain ⟨hrefs2, rfl⟩ := releaseVnode_drop hrefs (by simp only [Multiset.card_cons]; omega)
    (by rw [hwoken.others cur hne]; exact hcur) h2
  have hone : ((u1.withCount cur ((u1.vnodes cur).count - 1)).vnodes new).count = 1 := by
    rw [withCount_ne hne.symm]
    exact hwoken.count
  obtain ⟨hrefs3, rfl⟩ := getVnode_refs hrefs2 (by simp only [Multiset.card_cons]; omega)
    (by rw [hone]; decide) h3
  refine ⟨hnew, hrefs3, ?_, ?_, hwoken.volume⟩
  · rw [withCount_same, hone]
  · rw [withCount_data, withCount_data]
    exact hdata

theorem lookupPathFrom_enter {fuel : Nat} {path : List Nat} (hpath : path ≠ [])
    (hdot : (nextComponent path).1 ≠ nameDot) (hdotdot : (nextComponent path).1 ≠ nameDotDot)
    (he : entryOf u.toVolume (u.vnodes cur).data (nextComponent path).1 = some e)
    (h : Refs u (cur ::ₘ cur ::ₘ R)) (hR : (cur ::ₘ cur ::ₘ R).card ≤ refsMax)
    (hcur : 1 < (u.vnodes cur).count) (hdead : entryLive u cur e = false)
    (hmem : ∀ p, u.noMem p = false) (hrun : lookupPathFrom (fuel + 1) path cur u = some (ret, t)) :
    ∃ new u', new ≠ 0 ∧ Refs u' (new ::ₘ new ::ₘ R) ∧ (u'.vnodes new).count = 2 ∧
      (u'.vnodes new).data = e.dent ∧ u'.toVolume = u.toVolume ∧ (∀ p, u'.noMem p = false) ∧
      lookupPathFrom fuel (nextComponent path).2 new u' = some (ret, t) := by
  unfold lookupPathFrom at hrun
  rw [if_neg hpath] at hrun
  dsimp only at hrun
  rw [if_neg hdot, if_neg hdotdot] at hrun
  simp only [bind_some] at hrun
  obtain ⟨new, u1, h1, _, u2, h2, hrun⟩ := hrun
  split at hrun
  · rename_i hnew
    obtain ⟨hne, -⟩ := lookup_fresh hdot hdotdot he h (by omega) hdead (hmem _) h1
    exact absurd hnew hne
  obtain ⟨_, u3, h3, hrun⟩ := bind_some.mp hrun
  obtain ⟨hnew, hrefs, hcount, hdata, hvol⟩ :=
    walk_fresh hdot hdotdot he h hR hcur hdead (hmem _) h1 h2 h3
  have hfiles := ((keeps_fat12VopLookup SameFiles _ _ _ _ _ h1).trans
    (keeps_releaseVnode SameFiles _ _ _ _ h2)).trans (keeps_addCount SameFiles _ _ _ _ _ h3)
  exact ⟨new, u3, hnew, hrefs, hcount, hdata, hvol, fun p => by rw [hfiles.noMem]; exact hmem p, hrun⟩

theorem seekDir_below {s : Fs} {d : Nat} : ∀ {fuel : Nat} {path : List Nat} {b : Bool}
    {dent dent' : Bytes}, seekDir s d fuel path false dent = some (b, dent') → b = false
  | 0, _, _, _, _, h => absurd h (by simp [seekDir])
  | fuel + 1, path, b, dent, dent', h => by
    unfold seekDir at h
    split at h
    · exact (Prod.mk.inj (Option.some.inj h)).1.symm
    dsimp only at h
    split at h
    · exact seekDir_below h
    split at h
    · cases h
    split at h
    · cases h
    split at h
    · cases h
    · exact seekDir_below h

/-- Where the walk is: in the directory it started in, or in one that it has brought to life. -/
def WalkAt (s u : Fs) (d : Nat) (atStart : Bool) (cur n : Nat) : Prop :=
  atStart = true ∧ cur = d ∧ (∃ c, u = s.withCount d c) ∨ atStart = false ∧ (u.vnodes cur).count = n

theorem WalkAt.dead {a : Bool} (hat : WalkAt s u d a cur 2) (hs : Refs s R)
    (hd : 0 < (s.vnodes d).count) (h : Refs u (cur ::ₘ cur ::ₘ R)) (hcur : cur ≠ 0)
    (hlive : ¬ (a && entryLive s d e) = true) : entryLive u cur e = false := by
  rcases hat with ⟨rfl, rfl, c, rfl⟩ | ⟨-, hcount⟩
  · rw [entryLive_withCount hs hd]
    simpa using hlive
  have heq := h.counted.count_eq cur (Nat.pos_of_ne_zero hcur)
  simp only [Multiset.count_cons_self, hcount] at heq
  refine h.childless hcur ?_ e
  simp only [Multiset.count_cons_self, hcount]
  omega

theorem lookupPathFrom_refs (hs : Refs s R) (hd : 0 < (s.vnodes d).count) :
    ∀ {fuel cur : Nat} {path : List Nat} {u : Fs} {a b : Bool} {dent : Bytes},
    Refs u (cur ::ₘ cur ::ₘ R) → (cur ::ₘ cur ::ₘ R).card ≤ refsMax → cur ≠ 0 →
    WalkAt s u d a cur 2 → u.toVolume = s.toVolume → u.noMem = s.noMem → Roomy s b →
    seekDir s d fuel path a (u.vnodes cur).data = some (b, dent) →
    lookupPathFrom fuel path cur u = some (ret, t) →
      DirFound s t R ret dent ∧ WalkAt s t d b ret 1
  | 0, _, _, _, _, _, _, _, _, _, _, _, _, _, hseek, _ => absurd hseek (by simp [seekDir])
  | fuel + 1, cur, path, u, a, b, dent, h, hR, hcur, hat, hvol, hnoMem, hroom, hseek, hrun => by
    have htwo : 1 < (u.vnodes cur).count := by
      have heq := h.counted.count_eq cur (Nat.pos_of_ne_zero hcur)
      rw [Multiset.count_cons_self, Multiset.count_cons_self] at heq
      omega
    have hwhole := hrun
    unfold lookupPathFrom at hrun
    unfold seekDir at hseek
    by_cases hpath : path = []
    · rw [if_pos hpath] at hrun hseek
      obtain ⟨_, u1, h1, hrun⟩ := bind_some.mp hrun
      cases hrun
      obtain ⟨hrefs, rfl⟩ := addCount_drop h hR htwo h1
      cases hseek
      refine ⟨⟨hcur, hrefs, withCount_data _ _ _ _, hvol⟩, ?_⟩
      rcases hat with ⟨ha, rfl, c, rfl⟩ | ⟨ha, hcount⟩
      · exact .inl ⟨ha, rfl, _, withCount_withCount _ _ _ _⟩
      · exact .inr ⟨ha, by rw [withCount_same, hcount]⟩
    rw [if_neg hpath] at hrun hseek
    dsimp only at hrun hseek
    by_cases hdot : (nextComponent path).1 = nameDot
    · rw [if_pos hdot] at hrun hseek
      exact lookupPathFrom_refs hs hd h hR hcur hat hvol hnoMem hroom hseek hrun
    rw [if_neg hdot] at hseek
    by_cases hdotdot : (nextComponent path).1 = nameDotDot
    · rw [if_pos hdotdot] at hseek
      cases hseek
    rw [if_neg hdotdot] at hseek
    cases he : entryOf s.toVolume (u.vnodes cur).data (nextComponent path).1 with
    | none =>
      rw [he] at hseek
      cases hseek
    | some e =>
      rw [he] at hseek
      dsimp only at hseek
      split at hseek
      · cases hseek
      rename_i hlive
      have hmem : ∀ p, s.noMem p = false := hroom.resolve_left (by simp [seekDir_below hseek])
      obtain ⟨new, u1, hnew, hrefs, hcount1, hdata, hvol1, hmem1, hrun⟩ :=
        lookupPathFrom_enter hpath hdot hdotdot (hvol ▸ he) h hR htwo (hat.dead hs hd h hcur hlive)
          (hnoMem ▸ hmem) hwhole
      simp only [Multiset.card_cons] at hR
      rw [← hdata] at hseek
      exact lookupPathFrom_refs hs hd hrefs (by simp only [Multiset.card_cons]; omega) hnew
        (.inr ⟨rfl, hcount1⟩) (hvol1.trans hvol) (funext fun p => (hmem1 p).trans (hmem p).symm) hroom
        hseek hrun

theorem lookupPath_eq (s : Fs) (pid : Nat) (path : List Nat) : lookupPath pid path s = (do
      addCount (startDir s pid path) 1
      addCount (startDir s pid path) 1
      lookupPathFrom ((relPath path).length + 1) (relPath path) (startDir s pid path) : Prog Fs Nat) s := by
  unfold lookupPath startDir relPath getRootdir getCurdir
  by_cases hsep : path.head?.any isSeparator = true
  · simp only [if_pos hsep, bind_assoc, pure_bind]
    rfl
  · simp only [if_neg hsep, bind_assoc, pure_bind]
    rfl

section

variable (hs : Refs s R) (hR : R.card + 3 ≤ refsMax)
include hs hR

/-- **`lookup_path` is exact** on a path whose directories it brings to life. -/
theorem lookupPath_refs {pid : Nat} {path : List Nat} (hd : startDir s pid path ∈ R)
    (hseek : seekPath s pid path = some (b, dent)) (hroom : Roomy s b)
    (hrun : lookupPath pid path s = some (ret, t)) :
    DirFound s t R ret dent ∧ WalkAt s t (startDir s pid path) b ret 1 := by
  rw [lookupPath_eq] at hrun
  simp only [bind_some] at hrun
  obtain ⟨_, s₁, h1, _, s2, h2, hrun⟩ := hrun
  obtain ⟨hd0, -⟩ := addCount_some h1
  obtain ⟨hrefs1, rfl⟩ := getVnode_refs hs (by omega) (hs.live hd0 hd) h1
  obtain ⟨hrefs2, rfl⟩ := getVnode_refs hrefs1 (by rw [Multiset.card_cons]; omega)
    (hrefs1.live hd0 (Multiset.mem_cons_self _ _)) h2
  rw [withCount_withCount] at hrefs2 hrun
  exact lookupPathFrom_refs hs (hs.live hd0 hd) hrefs2 (by simp only [Multiset.card_cons]; omega) hd0
    (.inl ⟨rfl, rfl, _, rfl⟩) rfl rfl hroom (by rw [withCount_data]; exact hseek) hrun

theorem openDirPart_refs {pid : Nat} {path : List Nat} (hd : startDir s pid path ∈ R)
    (hseek : seekPath s pid path = some (b, dent)) (hroom : Roomy s b)
    (hrun : openDirPart pid path s = some (ret, t)) :
    DirFound s t R ret dent ∧ WalkAt s t (startDir s pid path) b ret 1 := by
  unfold openDirPart at hrun
  by_cases hpath : path = []
  · subst hpath
    rw [if_neg (by simp)] at hrun
    cases hseek
    unfold getCurdir at hrun
    simp only [bind_some] at hrun
    obtain ⟨_, _, hget, _, s₁, h1, hrun⟩ := hrun
    cases hget
    cases hrun
    obtain ⟨hd0, -⟩ := addCount_some h1
    obtain ⟨hrefs, rfl⟩ := getVnode_refs hs (by omega) (hs.live hd0 hd) h1
    exact ⟨⟨hd0, hrefs, withCount_data _ _ _ _, rfl⟩, .inl ⟨rfl, rfl, _, rfl⟩⟩
  · rw [if_pos hpath] at hrun
    exact lookupPath_refs hs hR hd hseek hroom hrun

/-- The directory and the file of a path, with one reference to each, or to the directory if there
    is no such file. -/
theorem findFile_refs {pid : Nat} {path : List Nat} {fvn : Nat} {s2 : Fs}
    (hd : startDir s pid (parsePath path).1 ∈ R) (hok : PathOk s pid path mayMiss)
    (h1 : openDirPart pid (parsePath path).1 s = some (vn, s₁))
    (h2 : fat12VopLookup vn (parsePath path).2 s₁ = some (fvn, s2)) :
    fvn = 0 ∧ mayMiss = true ∧ Refs s2 (vn ::ₘ R) ∨ fvn ≠ 0 ∧ Refs s2 (fvn ::ₘ vn ::ₘ R) := by
  obtain ⟨b, dent, hseek, hroom, hdot, hlast⟩ := hok
  obtain ⟨hfound, hwhere⟩ := openDirPart_refs hs hR hd hseek hroom h1
  have hcard : (vn ::ₘ R).card ≤ refsMax := by
    rw [Multiset.card_cons]
    omega
  have hlive : 0 < (s₁.vnodes vn).count := hfound.refs.live hfound.ne_zero (Multiset.mem_cons_self _ _)
  by_cases hdotdot : (parsePath path).2 = nameDotDot
  · rw [hdotdot] at h2
    exact .inr (lookup_dotdot hfound.refs hcard hlive h2)
  have hentry : entryOf s₁.toVolume (s₁.vnodes vn).data (parsePath path).2 =
      entryOf s.toVolume dent (parsePath path).2 := by rw [hfound.volume, hfound.data]
  have hlast := hlast.resolve_left hdotdot
  cases he : entryOf s.toVolume dent (parsePath path).2 with
  | none =>
    rw [he] at hlast hentry
    have hspec := lookup_spec hdot hdotdot h2
    rw [hentry] at hspec
    obtain ⟨rfl, rfl⟩ := hspec
    exact .inl ⟨rfl, hlast, hfound.refs⟩
  | some e =>
    rw [he] at hlast hentry
    obtain ⟨hb, hent⟩ := hlast
    rcases hwhere with ⟨-, rfl, c, rfl⟩ | ⟨hb', -⟩
    · refine .inr (lookup_live hdot hdotdot hentry hfound.refs hcard ?_ h2)
      rw [entryLive_withCount hs (hs.live hfound.ne_zero hd)]
      exact hent
    · exact absurd hb (by simp [hb'])

end

end walk

/-! ## Calls that hold nothing afterwards -/

section calls

variable {s t : Fs} {R : Multiset Nat} {pid : Nat} {path : List Nat} {ret : Int}

theorem releaseBoth_refs {q : Nat} (h : Refs s (p ::ₘ q ::ₘ R)) (hR : R.card + 3 ≤ refsMax)
    (hrun : (do releaseVnode p; releaseVnode q; return r : Prog Fs Int) s = some (ret, t)) :
    Refs t R := by
  simp only [bind_some] at hrun
  obtain ⟨_, s₁, h1, _, s2, h2, hrun⟩ := hrun
  cases hrun
  have hs1 := releaseVnode_refs h (by simp only [Multiset.card_cons]; omega) h1
  exact releaseVnode_refs hs1 (by rw [Multiset.card_cons]; omega) h2

theorem releaseOne_refs (h : Refs s (p ::ₘ R)) (hR : R.card + 3 ≤ refsMax)
    (hrun : (do releaseVnode p; return r : Prog Fs Int) s = some (ret, t)) : Refs t R := by
  simp only [bind_some] at hrun
  obtain ⟨_, s₁, h1, hrun⟩ := hrun
  cases hrun
  exact releaseVnode_refs h (by rw [Multiset.card_cons]; omega) h1

variable (h : Refs s R) (hR : R.card + 3 ≤ refsMax) (hd : startDir s pid (parsePath path).1 ∈ R)
include h hR hd

theorem PathOk.dir_ne_zero (hok : PathOk s pid path mayMiss)
    (h1 : openDirPart pid (parsePath path).1 s = some (vn, s₁)) : vn ≠ 0 := by
  obtain ⟨b, dent, hseek, hroom, -⟩ := hok
  exact (openDirPart_refs h hR hd hseek hroom h1).1.ne_zero

/-- A path that is too long, or one on which references balance. -/
def CallOk (s : Fs) (pid : Nat) (path : List Nat) (mayMiss : Bool) : Prop :=
  pathMax < path.length ∨ PathOk s pid path mayMiss

theorem call_refs {body : Nat → Nat → Prog Fs Int} (hok : CallOk s pid path mayMiss)
    (hrun : (if pathMax < path.length then pure elongPath else do
      let vn ← openDirPart pid (parsePath path).1
      if vn = 0 then pure epathNotExists else do
        let fvn ← fat12VopLookup vn (parsePath path).2
        body vn fvn : Prog Fs Int) s = some (ret, t)) :
    t = s ∨ ∃ vn fvn s2, body vn fvn s2 = some (ret, t) ∧
      (fvn = 0 ∧ Refs s2 (vn ::ₘ R) ∨ fvn ≠ 0 ∧ Refs s2 (fvn ::ₘ vn ::ₘ R)) := by
  obtain ⟨-, rfl⟩ | ⟨-, hlen, h1⟩ | ⟨vn, fvn, s₁, s2, hlen, -, h1, h2, -, hrun⟩ := withFile_some hrun
  · exact .inl rfl
  · exact absurd rfl ((hok.resolve_left hlen).dir_ne_zero h hR hd h1)
  · exact .inr ⟨vn, fvn, s2, hrun,
      (findFile_refs h hR hd (hok.resolve_left hlen) h1 h2).imp (fun hn => ⟨hn.1, hn.2.2⟩) id⟩

theorem syscallStat_refs (hok : CallOk s pid path true)
    (hrun : syscallStat pid path s = some (ret, t)) : Refs t R := by
  rcases call_refs h hR hd hok hrun with rfl | ⟨vn, fvn, s2, hrun, ⟨hfvn, hrefs⟩ | ⟨hfvn, hrefs⟩⟩
  · exact h
  · rw [if_pos hfvn] at hrun
    exact releaseOne_refs hrefs hR hrun
  · rw [if_neg hfvn] at hrun
    exact releaseBoth_refs hrefs hR hrun

theorem syscallMkdir_refs (hok : CallOk s pid path true)
    (hrun : syscallMkdir pid path s = some (ret, t)) : Refs t R := by
  rcases call_refs h hR hd hok hrun with rfl | ⟨vn, fvn, s2, hrun, ⟨hfvn, hrefs⟩ | ⟨hfvn, hrefs⟩⟩
  · exact h
  · rw [if_neg (by simpa using hfvn)] at hrun
    obtain ⟨err, s3, h3, hrun⟩ := bind_some.mp hrun
    exact releaseOne_refs (hrefs.congr (keeps_fat12VopMkdir SameVnodes _ _ _ _ _ h3)) hR hrun
  · rw [if_pos hfvn] at hrun
    exact releaseBoth_refs hrefs hR hrun

theorem syscallUnlink_refs (hok : CallOk s pid path true)
    (hrun : syscallUnlink pid path s = some (ret, t)) : Refs t R := by
  rcases call_refs h hR hd hok hrun with rfl | ⟨vn, fvn, s2, hrun, ⟨hfvn, hrefs⟩ | ⟨hfvn, hrefs⟩⟩
  · exact h
  · rw [if_pos hfvn] at hrun
    exact releaseOne_refs hrefs hR hrun
  · rw [if_neg hfvn] at hrun
    obtain ⟨-, hrun⟩ := vnode_bind.mp hrun
    -- Whether the file is removed or not, nothing of that is counted.
    split at hrun
    · exact releaseBoth_refs hrefs hR hrun
    split at hrun
    · exact releaseBoth_refs hrefs hR hrun
    · obtain ⟨err, s4, h4, hrun⟩ := bind_some.mp hrun
      exact releaseBoth_refs (hrefs.congr (keeps_fat12VopRemove SameVnodes _ _ _ _ h4)) hR hrun

end calls

end AtomOs
