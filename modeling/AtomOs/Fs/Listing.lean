import AtomOs.Fs.Directory

/-!
# Listing a directory

A caller that wants all entries of a directory calls `fat12_vop_readdir` again and again, each time
with the offset behind the entry it got last. Each call finds its place again by walking the chain
from its start, and then walks on over slots that are not in use. That the two walks agree is in
`readdir_eq`; here the calls are put together (**`readdirAll_complete`**): every slot in use is
handed out once, in order, and then comes an error. No call comes to a cluster twice
(`visited_nodup`), also not the one behind a full last cluster.

The clusters a call comes to are written down by loops of their own (`seekTrace`, `readdirTrace`). That
they are those of `fat12_vop_readdir` is **`readdir_visited`**: on a volume that differs anywhere but in
the blocks and table values of these clusters the call gives the same result.
-/

namespace AtomOs

open Lib Dirent

/-- The calls of `fat12_vop_readdir` from an offset on: what they hand out, and the error of the last
    one. -/
def readdirAll (v : Volume) (dent : Bytes) : Nat → Nat → Option (List ReadEntry × Int)
  | 0, _ => none
  | calls + 1, offset =>
    match fat12VopReaddir v dent offset with
    | none => none
    | some (.error e) => some ([], e)
    | some (.ok r) => (readdirAll v dent calls (r.off + 32)).map fun (rs, e) => (r :: rs, e)

/-! ## The clusters a call comes to -/

/-- The clusters `cur_cluster` leaves in the first loop of `fat12_vop_readdir`. -/
def seekTrace (fat : FatTable) : Nat → Int → List Int
  | 0, _ => []
  | i + 1, cur =>
    let next := stepCluster fat cur
    if 0xff8 ≤ next then [cur] else cur :: seekTrace fat i next

/-- The clusters the second loop reads. -/
def readdirTrace (v : Volume) : Nat → Int → Nat → List Int
  | 0, _, _ => []
  | fuel + 1, cur, pos =>
    match v.bread cur with
    | none => [cur]
    | some buff =>
      if scanSlots (fun d => !skipped d) buff 16 pos < 512 then [cur]
      else
        let next := stepCluster v.fat cur
        if 0xff8 ≤ next then [cur] else cur :: readdirTrace v fuel next 0

/-- All clusters a call of `fat12_vop_readdir` comes to, in order. -/
def visited (v : Volume) (dent : Bytes) (offset : Nat) : List Int :=
  let (left, cur) := seekCluster v.fat (offset / 512) (Dirent.startCluster dent)
  seekTrace v.fat (offset / 512) (Dirent.startCluster dent) ++
    if 0 < left then [] else readdirTrace v chainFuel cur (offset % 512)

section listing

variable {v v' : Volume} {dent : Bytes} {cs : List Int}

theorem seekCluster_congr {fat fat' : FatTable} : ∀ {i : Nat} {cur : Int},
    (∀ c ∈ seekTrace fat i cur, stepCluster fat' c = stepCluster fat c) →
    seekCluster fat' i cur = seekCluster fat i cur
  | 0, _, _ => rfl
  | i + 1, cur, h => by
    have hcur : stepCluster fat' cur = stepCluster fat cur := h cur (by
      rw [seekTrace]
      split <;> exact List.mem_cons_self)
    rw [seekCluster, seekCluster, hcur]
    by_cases hend : 0xff8 ≤ stepCluster fat cur
    · simp only [if_pos hend]
    · simp only [if_neg hend]
      refine seekCluster_congr fun c hc => h c ?_
      rw [seekTrace]
      simp only [if_neg hend]
      exact List.mem_cons_of_mem _ hc

theorem readdirFrom_congr : ∀ {fuel pos off : Nat} {cur : Int},
    (∀ c ∈ readdirTrace v fuel cur pos, v'.bread c = v.bread c ∧ stepCluster v'.fat c = stepCluster v.fat c) →
    readdirFrom v' fuel cur pos off = readdirFrom v fuel cur pos off
  | 0, _, _, _, _ => rfl
  | fuel + 1, pos, off, cur, h => by
    rw [readdirTrace] at h
    rw [readdirFrom, readdirFrom]
    cases hread : v.bread cur with
    | none =>
      rw [hread] at h
      rw [(h cur List.mem_cons_self).1, hread]
    | some buff =>
      rw [hread] at h
      simp only at h
      by_cases hfound : scanSlots (fun d => !skipped d) buff 16 pos < 512
      · rw [if_pos hfound] at h
        rw [(h cur List.mem_cons_self).1, hread]
        simp only [if_pos hfound]
      · rw [if_neg hfound] at h
        by_cases hend : 0xff8 ≤ stepCluster v.fat cur
        · rw [if_pos hend] at h
          obtain ⟨hblock, hstep⟩ := h cur List.mem_cons_self
          rw [hblock, hstep, hread]
          simp only [if_neg hfound, if_pos hend]
        · rw [if_neg hend] at h
          obtain ⟨hblock, hstep⟩ := h cur List.mem_cons_self
          rw [hblock, hstep, hread]
          simp only [if_neg hfound, if_neg hend]
          exact readdirFrom_congr fun c hc => h c (List.mem_cons_of_mem _ hc)

/-- **A call of `fat12_vop_readdir`** looks at the clusters it comes to, and at no others. -/
theorem readdir_visited {offset : Nat} (h : ∀ c ∈ visited v dent offset,
      v'.bread c = v.bread c ∧ stepCluster v'.fat c = stepCluster v.fat c) :
    fat12VopReaddir v' dent offset = fat12VopReaddir v dent offset := by
  have hseek : seekCluster v'.fat (offset / 512) (startCluster dent) =
      seekCluster v.fat (offset / 512) (startCluster dent) :=
    seekCluster_congr fun c hc => (h c (List.mem_append_left _ hc)).2
  rw [fat12VopReaddir, fat12VopReaddir, hseek]
  simp only
  split
  · rfl
  · rename_i hleft
    refine readdirFrom_congr fun c hc => h c (List.mem_append_right _ ?_)
    rwa [if_neg hleft]

theorem seekTrace_eq {fat : FatTable} : ∀ {cs : List Int} {i : Nat} {cur : Int},
    DirChain fat cur cs → i ≤ cs.length → seekTrace fat i cur = cs.take i
  | cs, 0, cur, _, _ => by simp [seekTrace]
  | c :: cs, i + 1, cur, hchain, hi => by
    obtain rfl : cur = c := hchain.linked.1
    rw [seekTrace]
    by_cases hend : 0xff8 ≤ stepCluster fat cur
    · obtain rfl : cs = [] := (show Linked _ _ _ [] from hend).unique hchain.linked.2.2 ▸ rfl
      simp [hend]
    · simp only [if_neg hend, List.take_succ_cons]
      rw [seekTrace_eq hchain.tail (by simpa using hi)]

theorem readdirTrace_isPrefix : ∀ (fuel pos : Nat) {cs : List Int} {cur : Int},
    DirRow v cur cs → cs ≠ [] → readdirTrace v fuel cur pos <+: cs
  | _, _, [], _, _, hne => absurd rfl hne
  | 0, _, c :: cs, _, _, _ => List.nil_prefix
  | fuel + 1, pos, c :: cs, cur, hrow, _ => by
    obtain rfl : cur = c := hrow.linked.1
    have hone : [cur] <+: cur :: cs := ⟨cs, rfl⟩
    rw [readdirTrace, hrow.bread List.mem_cons_self]
    simp only
    split
    · exact hone
    split
    · exact hone
    rename_i hend
    have hne : cs ≠ [] := by
      rintro rfl
      exact hend hrow.linked.2.2
    exact (List.prefix_cons_inj cur).mpr (readdirTrace_isPrefix fuel 0 hrow.tail hne)

theorem visited_nodup (hv : Healthy v) (hchain : DirChain v.fat (startCluster dent) cs)
    (hne : cs ≠ []) {i : Nat} (hi : i ≤ 16 * cs.length) : (visited v dent (32 * i)).Nodup := by
  have hblock : 32 * i / 512 = i / 16 := by omega
  obtain ⟨c, hseek, hdrop, hlast⟩ := seekCluster_eq (i := i / 16) (hchain.row hv) hne (by omega)
  rw [visited, hblock, hseek]
  simp only
  rw [if_neg (Nat.lt_irrefl 0), seekTrace_eq hchain (by omega)]
  by_cases hbehind : i / 16 = cs.length
  · -- the offset is the end of a full last cluster
    have hend := hlast hbehind
    have hnew : c ∉ cs := fun hmem => by
      rw [(hchain.row hv).bread hmem] at hend
      cases hend
    rw [chainFuel, readdirTrace, hend, hbehind, List.take_length]
    refine List.nodup_append.mpr ⟨hchain.nodup, by simp, fun a ha b hb => ?_⟩
    rw [List.mem_singleton.mp hb]
    rintro rfl
    exact hnew ha
  · have hdne : cs.drop (i / 16) ≠ [] := by
      intro h
      have := congrArg List.length h
      simp at this
      omega
    have hsub : cs.take (i / 16) ++ readdirTrace v chainFuel c (32 * i % 512) <+: cs := by
      obtain ⟨rest, hrest⟩ := readdirTrace_isPrefix chainFuel (32 * i % 512) hdrop hdne
      refine ⟨rest, ?_⟩
      rw [List.append_assoc, hrest, List.take_append_drop]
    exact hchain.nodup.sublist hsub.sublist

/-! ## All calls -/

theorem readdirAll_eq (hv : Healthy v) (hchain : DirChain v.fat (startCluster dent) cs)
    (hne : cs ≠ []) (calls i : Nat) (hi : i ≤ 16 * cs.length) (hcalls : 16 * cs.length < i + calls) :
    ∃ e, readdirAll v dent calls (32 * i) =
      some (((List.range' i (16 * cs.length - i)).filter fun k => !skipped (slot v cs k)).map
        (entryAt v cs), e) := by
  induction calls generalizing i with
  | zero => omega
  | succ calls ih =>
    rw [readdirAll]
    rcases readdir_eq (i := i) (hchain.row hv) hne with ⟨k, hfind, hrun⟩ | ⟨hnone, e, hrun⟩
    · obtain ⟨hik, hkn, -⟩ := firstFrom_eq_some.mp hfind
      obtain ⟨e, hrest⟩ := ih (k + 1) hkn (by omega)
      refine ⟨e, ?_⟩
      have hoff : (entryAt v cs k).off + 32 = 32 * (k + 1) := rfl
      rw [hrun, filter_range'_of_firstFrom hfind]
      simp only
      rw [hoff, hrest]
      rfl
    · refine ⟨e, ?_⟩
      rw [hrun, filter_range'_of_none hnone]
      rfl

/-- **A directory is listed completely**: the calls of `fat12_vop_readdir`, each from behind the last
    entry, hand out every slot in use once and in order, and end with an error; none of them comes to
    a cluster twice. -/
theorem readdirAll_complete (v : Volume) (dent : Bytes) (cs : List Int) (hv : Healthy v)
    (hchain : DirChain v.fat (Dirent.startCluster dent) cs) (hne : cs ≠ []) :
    (∃ e, readdirAll v dent (16 * cs.length + 1) 0 =
      some (((List.range (16 * cs.length)).filter fun k => !skipped (slot v cs k)).map fun k =>
        ⟨Dirent.startCluster (slot v cs k), 32 * k, copied (slot v cs k)⟩, e)) ∧
      ∀ i ≤ 16 * cs.length, (visited v dent (32 * i)).Nodup := by
  refine ⟨?_, fun i hi => visited_nodup hv hchain hne hi⟩
  have h := readdirAll_eq hv hchain hne (16 * cs.length + 1) 0 (Nat.zero_le _) (by omega)
  rw [Nat.mul_zero, Nat.sub_zero, ← List.range_eq_range'] at h
  exact h

/-- A root directory with one entry, in the first slot of its second block. -/
def oneEntry : Volume where
  fat _ := 0
  disk b := if b = 20 then Bytes.ofList (blankTo 11 [65] ++ [0x20]) else Bytes.zero
  unreadable b := decide (totalSect ≤ b)
  platter _ := Bytes.zero
  faulty b := decide (totalSect ≤ b)

theorem readdirAll_complete_oneEntry :
    (readdirAll oneEntry (Dirent.setStart Bytes.zero (-12)) 225 0).map (fun r => r.1.map (·.off)) =
      some [512] ∧ (visited oneEntry (Dirent.setStart Bytes.zero (-12)) 544).Nodup := by
  have hstart : startCluster (setStart Bytes.zero (-12)) = -12 := by decide
  have hchain : DirChain oneEntry.fat (startCluster (setStart Bytes.zero (-12)))
      rootClusters := hstart ▸ dirChain_root _
  obtain ⟨⟨e, hall⟩, hvisited⟩ := readdirAll_complete oneEntry _ rootClusters (fun _ => rfl) hchain
    (by decide)
  refine ⟨?_, hvisited 17 (by decide)⟩
  rw [show 225 = 16 * rootClusters.length + 1 from rfl, hall]
  simp only [Option.map_some]
  decide +kernel

end listing

end AtomOs
