import AtomOs.Fs.FileWrite

/-!
# What is in a file

A file's content is what its clusters hold, in the order of its chain, up to its size (`contents`).
`fat12_vop_read` returns it (`readLoop_eq`), and `fat12_vop_write` writes over it
(`writeLoop_content`): block by block, with a new cluster where the chain has come to its end.

At position 0 of a file that is not empty `fat12_vop_write` does not find the first block. It steps
back from each multiple of the block size to the block before it, and there is none before the first.
So it goes on to the second block, which the file gets if it has none (`writeLoop_start`); the blocks
behind that are written in their places again. Such a write is right by accident only: the file has a
second block, the bytes for the first one are there already, and the copy in the second one changes nothing
that is read. In every other case the file is read back as it was written, and both directions are
**`file_write_read`**.
-/

namespace AtomOs

open Lib Prog List Dirent

/-! ## Contents -/

/-- Byte `i` of the file with the clusters `l`. -/
def fileByte (v : Volume) (l : List Nat) (i : Nat) : Nat := v.disk (l.getD (i / 512) 0 + 31) (i % 512)

/-- The first `n` bytes of the file with the clusters `l`. -/
def contents (v : Volume) (l : List Nat) (n : Nat) : List Nat := (List.range n).map (fileByte v l)

def blocksFor (n : Nat) : Nat := (n + 511) / 512

/-- The vnode `p` is that of a file with the clusters `l`, as many as it needs, and the content `c`. -/
structure FileAt (s : Fs) (p : Nat) (l c : List Nat) : Prop where
  chain : FileChain s.fat (s.vnodes p).data l
  exact : l.length = blocksFor (Dirent.fsize (s.vnodes p).data)
  content : c = contents s.toVolume l (Dirent.fsize (s.vnodes p).data)

/-- `c` with `d` written over it from position `o` on. -/
def overwrite (c : List Nat) (o : Nat) (d : List Nat) : List Nat := c.take o ++ d ++ c.drop (o + d.length)

theorem blocksFor_le {n m : Nat} (h : n ≤ 512 * m) : blocksFor n ≤ m := by
  unfold blocksFor
  omega

theorem lt_blocksFor {i n : Nat} (h : i < n) : i / 512 < blocksFor n := by
  unfold blocksFor
  omega

theorem blocksFor_max (n m : Nat) : blocksFor (max n m) = max (blocksFor n) (blocksFor m) := by
  have hmono : Monotone blocksFor := fun a b hab => Nat.div_le_div_right (Nat.add_le_add_right hab 511)
  exact hmono.map_max

section contents

variable {s t : Fs} {p o n : Nat} {l c : List Nat}

theorem FileAt.length (h : FileAt s p l c) : c.length = fsize (s.vnodes p).data := by
  rw [h.content, contents, length_map, length_range]

theorem FileAt.congr (h : FileAt s p l c) (hvol : t.toVolume = s.toVolume)
    (hdata : (t.vnodes p).data = (s.vnodes p).data) : FileAt t p l c := by
  have hfat : t.fat = s.fat := congrArg Volume.fat hvol
  refine ⟨?_, by rw [hdata]; exact h.exact, ?_⟩
  · rw [hfat, hdata]
    exact h.chain
  · rw [hvol, hdata]
    exact h.content

theorem length_overwrite {d : List Nat} (ho : o ≤ c.length) :
    (overwrite c o d).length = max c.length (o + d.length) := by
  simp only [overwrite, length_append, length_take, length_drop]
  omega

theorem map_range_overwrite {f g h : Nat → Nat} {m : Nat} (ho : o ≤ n)
    (hf : ∀ i, i < max n (o + m) → f i = if o ≤ i ∧ i < o + m then h (i - o) else g i) :
    (List.range (max n (o + m))).map f = overwrite ((List.range n).map g) o ((List.range m).map h) := by
  apply ext_getElem
  · rw [length_overwrite (by simpa using ho)]
    simp
  · intro i h1 h2
    rw [length_map, length_range] at h1
    rw [getElem_map, getElem_range, hf i h1]
    simp only [overwrite, append_assoc]
    by_cases hlt : i < o
    · rw [if_neg (by omega), getElem_append_left (by simp; omega)]
      simp
    rw [getElem_append_right (by simp; omega)]
    by_cases hin : i < o + m
    · rw [if_pos (by omega), getElem_append_left (by simp; omega)]
      simp [Nat.min_eq_left ho]
    rw [if_neg (by omega), getElem_append_right (by simp; omega)]
    simp only [getElem_drop, getElem_map, getElem_range, length_take,
      length_map, length_range, Nat.min_eq_left ho]
    congr 1
    omega

/-! ## Reading -/

theorem fileByte_eq {v : Volume} {i : Nat} (hi : i / 512 < l.length) :
    fileByte v l i = v.disk (l[i / 512] + 31) (i % 512) := by
  rw [fileByte, getD_eq_getElem?_getD, getElem?_eq_getElem hi, Option.getD_some]

/-- **The loop of `fat12_vop_read`** returns the bytes of the file. -/
theorem readLoop_eq {b : Nat} (hv : Healthy s.toVolume) (hchain : Chain s.fat b l) (fuel n o : Nat)
    (acc : List Nat) (hfuel : n ≤ fuel) (hend : o + n ≤ 512 * l.length) :
    readLoop s b fuel n o acc =
      (((o + n : Nat) : Int), acc ++ (List.range n).map fun i => fileByte s.toVolume l (o + i)) := by
  induction fuel generalizing n o acc with
  | zero =>
    obtain rfl : n = 0 := by omega
    simp [readLoop]
  | succ fuel ih =>
    rw [readLoop]
    by_cases hn : n = 0
    · subst hn
      simp
    have hi : o / 512 < l.length := by omega
    have hin := hchain.inside _ (getElem_mem hi)
    obtain ⟨k, hk⟩ : ∃ k, k = min (512 - o % 512) n := ⟨_, rfl⟩
    have hmod : (o : Int).tmod 512 = (o % 512 : Nat) := (Int.ofNat_tmod o 512).symm
    have hdiv : (o : Int).tdiv 512 = (o / 512 : Nat) := (Int.ofNat_tdiv o 512).symm
    have hmin : min (512 - ((o % 512 : Nat) : Int)) n = k := by omega
    have hleft : (n : Int) - k = (n - k : Nat) := by omega
    rw [if_neg (by omega)]
    simp only [hmod, hdiv, Int.toNat_natCast, hmin, hleft, ← Int.natCast_add, hchain.clusterAt_eq hi,
      bread_data hv hin.2]
    rw [ih (n - k) (o + k) _ (by omega) (by omega), append_assoc,
      show o + k + (n - k) = o + n by omega]
    congr 2
    -- the bytes of this block, and those behind it
    rw [show n = k + (n - k) by omega, range_add, map_append, map_map,
      Nat.add_sub_cancel_left]
    congr 1
    · apply map_congr_left
      intro j hj
      have hjk := mem_range.mp hj
      have hdivj : (o + j) / 512 = o / 512 := by omega
      have hmodj : (o + j) % 512 = o % 512 + j := by omega
      rw [fileByte_eq (by omega)]
      simp only [hdivj, hmodj]
      rfl
    · apply map_congr_left
      intro j _
      rw [Function.comp_apply, Nat.add_assoc]

/-- **`fat12_vop_read`** of a whole file. -/
theorem FileAt.read (h : FileAt s p l c) (hv : Healthy s.toVolume) {nb : Nat} (hle : c.length ≤ nb)
    (hnb : nb < 2147483648) : fat12VopRead s p 0 nb = ((c.length : Int), c) := by
  have hsize := h.chain.size_le
  have hc := h.length
  have hn : (if fsize (s.vnodes p).data < u32 (0 + (nb : Int)) then
      i32 (fsize (s.vnodes p).data - 0) else (nb : Int)) = c.length := by
    rw [Int.zero_add, u32_of_lt (by omega), Int.sub_zero, i32_of_range (by omega) (by omega)]
    split <;> omega
  unfold fat12VopRead
  simp only [hn, Int.toNat_natCast]
  rcases h.chain with ⟨h0, rfl⟩ | ⟨hne, b, hb, hchain, -⟩
  · rw [h0] at hc
    rw [length_eq_zero_iff.mp hc]
    rfl
  have hrun := readLoop_eq hv hchain c.length c.length 0 [] (Nat.le_refl _) (by omega)
  have hcontent : (List.range c.length).map (fun i => fileByte s.toVolume l i) = c := by
    rw [hc]
    exact h.content.symm
  simp only [Nat.zero_add, nil_append, hcontent] at hrun
  rw [hb]
  exact hrun

/-! ## Writing -/

theorem fileByte_prefix {v : Volume} {l' : List Nat} {i : Nat} (h : l <+: l') (hi : i / 512 < l.length) :
    fileByte v l' i = fileByte v l i := by
  have hlen := h.length_le
  rw [fileByte_eq hi, fileByte_eq (by omega), h.getElem hi]

theorem BlockWritten.fileByte_at {l' : List Nat} {j k : Nat} {buf : Bytes}
    (h : BlockWritten p s t l l' j o k buf) {i : Nat} (hi : i / 512 < l'.length) :
    fileByte t.toVolume l' i =
      if i / 512 = j ∧ o % 512 ≤ i % 512 ∧ i % 512 < o % 512 + k then buf (i % 512 - o % 512)
      else fileByte s.toVolume l' i := by
  obtain ⟨cl, hcl, hothers, hblock⟩ := h.block
  obtain ⟨hj, hget⟩ := List.getElem?_eq_some_iff.mp hcl
  rw [fileByte_eq hi, fileByte_eq hi]
  by_cases hsame : i / 512 = j
  · have hgeti : l'[i / 512] = cl := by
      simp only [hsame, hget]
    rw [hgeti, hblock _ (Nat.mod_lt _ (by omega))]
    simp only [hsame, true_and]
  · have hne : l'[i / 512] + 31 ≠ cl + 31 := by
      intro he
      rw [Nat.add_right_cancel_iff, ← hget, h.file.nodup.getElem_inj_iff] at he
      exact hsame he
    rw [hothers _ hne, if_neg fun hin => hsame hin.1]

theorem BlockWritten.fileByte {l' : List Nat} {k : Nat} {buf : Bytes}
    (h : BlockWritten p s t l l' (o / 512) o k buf) (hlen : fsize (s.vnodes p).data ≤ 512 * l.length)
    (ho : o ≤ fsize (s.vnodes p).data) (hk : o % 512 + k ≤ 512) {i : Nat}
    (hi : i < max (fsize (s.vnodes p).data) (o + k)) :
    AtomOs.fileByte t.toVolume l' i =
      if o ≤ i ∧ i < o + k then buf (i - o) else AtomOs.fileByte s.toVolume l i := by
  have hlength := h.length
  rw [h.fileByte_at (by omega)]
  by_cases hin : o ≤ i ∧ i < o + k
  · rw [if_pos hin, if_pos (by omega), show i % 512 - o % 512 = i - o by omega]
  · rw [if_neg hin, if_neg (by omega), fileByte_prefix h.growth.grows (by omega)]

/-- **A whole write**, if it does not begin at the start of a file that is not empty. -/
theorem writeLoop_content (hp : p ≠ 0) (fuel n o : Nat) (s : Fs) (l : List Nat) (buf : Bytes)
    (hfuel : n ≤ fuel) (hs : Healthy s.toVolume) (hfile : FileChain s.fat (s.vnodes p).data l)
    (ho : o ≤ fsize (s.vnodes p).data) (hstart : o ≠ 0 ∨ fsize (s.vnodes p).data = 0 ∨ n = 0)
    (hroom : o + n ≤ 512 * (l.length + (freeClusters s.fat).card)) :
    ∃ t l', writeLoop p fuel n o buf s = some (((o + n : Nat) : Int), t) ∧ FileGrowth p s t l l' ∧
      FileChain t.fat (t.vnodes p).data l' ∧
      fsize (t.vnodes p).data = max (fsize (s.vnodes p).data) (o + n) ∧
      l'.length = max l.length (blocksFor (o + n)) ∧
      ∀ i, i < max (fsize (s.vnodes p).data) (o + n) → fileByte t.toVolume l' i =
        if o ≤ i ∧ i < o + n then buf (i - o) else fileByte s.toVolume l i := by
  have hnothing : n = 0 → l.length = max l.length (blocksFor (o + n)) := fun hn => by
    have hsize := hfile.size_le
    exact (max_eq_left (blocksFor_le (by omega))).symm
  induction fuel generalizing n o s l buf with
  | zero =>
    obtain rfl : n = 0 := by omega
    refine ⟨s, l, rfl, .refl p s l, hfile, by omega, hnothing rfl, fun i hi => ?_⟩
    rw [if_neg (by omega)]
  | succ fuel ih =>
    by_cases hn : n = 0
    · subst hn
      refine ⟨s, l, rfl, .refl p s l, hfile, by omega, hnothing rfl, fun i hi => ?_⟩
      rw [if_neg (by omega)]
    have hend : writeEnd o n (fsize (s.vnodes p).data) = o + n := if_neg (by omega)
    have hindex : blockIndex o (fsize (s.vnodes p).data) = o / 512 := if_neg (by omega)
    have hdisk : DiskRoom s.fat l (writeEnd o n (fsize (s.vnodes p).data)) := .inr (hend ▸ hroom)
    rcases writeLoop_block fuel buf hp hs hfile ho (Nat.pos_of_ne_zero hn) hdisk with
      ⟨-, hfull, hle⟩ | ⟨t, l', k, hk, hblock, hloop⟩
    · rw [hfull, Finset.card_empty] at hroom
      omega
    rw [hindex] at hblock
    have hsize := hblock.size
    have hlength := hblock.length
    have hroom' : o + k + (n - k) ≤ 512 * (l'.length + (freeClusters t.fat).card) := by
      rw [hblock.growth.card hfile hblock.file]
      omega
    obtain ⟨u, l'', hrun, hgrow, hchain, hsize', hlast, hbytes⟩ :=
      ih (n - k) (o + k) t l' (buf.skip k) (by omega) (hblock.growth.healthy hs) hblock.file
        (by omega) (.inl (by omega)) hroom' fun _ => by
          have hlen := hblock.file.size_le
          exact (max_eq_left (blocksFor_le (by omega))).symm
    have hpos : o + k + (n - k) = o + n := by omega
    refine ⟨u, l'', ?_, hblock.growth.trans hgrow, hchain, by omega, ?_, fun i hi => ?_⟩
    · rw [hloop, hrun, hpos]
    · have hone : max (o / 512 + 1) (blocksFor (o + n)) = blocksFor (o + n) :=
        max_eq_right (lt_blocksFor (by omega))
      rw [hlast, hlength, hpos, max_assoc, hone]
    · rw [hbytes i (by omega)]
      by_cases hin : o + k ≤ i ∧ i < o + k + (n - k)
      · rw [if_pos hin, if_pos (by omega), Bytes.skip, show k + (i - (o + k)) = i - o by omega]
      · rw [if_neg hin, hblock.fileByte hfile.size_le ho (by omega) (by omega)]
        by_cases hblk : o ≤ i ∧ i < o + k
        · rw [if_pos hblk, if_pos (by omega)]
        · rw [if_neg hblk, if_neg (by omega)]

/-- **A write at the start** of a file that is not empty: what belongs to the first block goes to the
    second one, and is overwritten there as far as the write reaches. -/
theorem writeLoop_start {n : Nat} (hp : p ≠ 0) (buf : Bytes) (hs : Healthy s.toVolume)
    (hfile : FileChain s.fat (s.vnodes p).data l) (hne : fsize (s.vnodes p).data ≠ 0) (hn : 0 < n)
    (hroom : max n 513 ≤ 512 * (l.length + (freeClusters s.fat).card)) :
    ∃ t l', writeLoop p n n 0 buf s = some ((n : Int), t) ∧ FileGrowth p s t l l' ∧
      FileChain t.fat (t.vnodes p).data l' ∧
      fsize (t.vnodes p).data = max (fsize (s.vnodes p).data) n ∧
      l'.length = max l.length (max 2 (blocksFor n)) ∧
      ∀ i, i < max (fsize (s.vnodes p).data) n → fileByte t.toVolume l' i =
        if 512 ≤ i ∧ i < n then buf i
        else if 512 ≤ i ∧ i < 512 + min 512 n then buf (i - 512) else fileByte s.toVolume l i := by
  obtain ⟨fuel, rfl⟩ : ∃ fuel, n = fuel + 1 := ⟨n - 1, by omega⟩
  have hstart : 0 = 0 ∧ fsize (s.vnodes p).data ≠ 0 := ⟨rfl, hne⟩
  have hend : writeEnd 0 (fuel + 1) (fsize (s.vnodes p).data) = max (fuel + 1) 513 := if_pos hstart
  have hindex : blockIndex 0 (fsize (s.vnodes p).data) = 1 := if_pos hstart
  rcases writeLoop_block (o := 0) fuel buf hp hs hfile (Nat.zero_le _) hn (.inr (hend ▸ hroom)) with
    ⟨-, hfull, hle⟩ | ⟨t, l', k, hk, hblock, hloop⟩
  · rw [hfull, Finset.card_empty] at hroom
    omega
  rw [hindex] at hblock
  have hsize := hblock.size
  have hlength := hblock.length
  have hcard := hblock.growth.card hfile hblock.file
  have hlen := hfile.size_le
  obtain ⟨u, l'', hrun, hgrow, hchain, hsize', hlast, hbytes⟩ :=
    writeLoop_content hp fuel (fuel + 1 - k) k t l' (buf.skip k) (by omega) (hblock.growth.healthy hs)
      hblock.file (by omega) (.inl (by omega)) (by omega)
  have hpos : k + (fuel + 1 - k) = fuel + 1 := by omega
  rw [hpos] at hrun hlast
  refine ⟨u, l'', ?_, hblock.growth.trans hgrow, hchain, by omega, ?_, fun i hi => ?_⟩
  · rw [Nat.zero_add] at hloop
    exact hloop.trans hrun
  · rw [hlast, hlength, max_assoc]
  · rw [hbytes i (by omega)]
    by_cases hin : k ≤ i ∧ i < k + (fuel + 1 - k)
    · rw [if_pos hin, if_pos (by omega), Bytes.skip, show k + (i - k) = i by omega]
    · rw [if_neg hin, if_neg (by omega), hblock.fileByte_at (by omega)]
      by_cases hcopy : 512 ≤ i ∧ i < 512 + min 512 (fuel + 1)
      · rw [if_pos hcopy, if_pos (by omega), show i % 512 - 0 % 512 = i - 512 by omega]
      · rw [if_neg hcopy, if_neg (by omega), fileByte_prefix hblock.growth.grows (by omega)]

/-- A write at the start that fits into the only cluster of the file gives it another one. -/
theorem writeLoop_start_links {n x fuel : Nat} {t : Fs} (hp : p ≠ 0) (buf : Bytes) (hn : 0 < n) (hle : n ≤ 512)
    (hne : fsize (s.vnodes p).data ≠ 0)
    (hcur : clusterAt16 s.fat 0 (startCluster (s.vnodes p).data % 65536).toNat = x)
    (hend : 0xff8 ≤ nextCluster12 s.fat x)
    (hrun : writeLoop p (fuel + 1) n 0 buf s = some ((n : Int), t)) :
    ∃ cl < totalSect, t.fat = setClval12 (setClval12 s.fat cl 0xfff) x cl ∧
      startCluster (t.vnodes p).data = startCluster (s.vnodes p).data := by
  rcases allocBlock12_cases s.fat with ⟨h0, -, -⟩ | ⟨cl, h2, hlt, -, -, halloc⟩
  · have hfollow : followCluster x s = some (0, s) := by
      rw [followCluster, get_bind]
      simp only
      rw [if_pos hend, if_pos h0]
      rfl
    obtain ⟨hnone, -⟩ := writeLoop_boundary (o := 0) (k := n) fuel buf hp hn rfl (by omega) (by omega) hcur
      (clusterFor_more hp hne hfollow)
    have hcode := (hnone (if_pos ⟨hend, rfl⟩)).symm.trans hrun
    have : enoDiskSpace = (n : Int) := congrArg Prod.fst (Option.some.inj hcode)
    exact absurd this (by unfold enoDiskSpace; omega)
  · have hfollow := followCluster_new (s := s) hend (by omega) halloc
    obtain ⟨-, hfail, hsome⟩ := writeLoop_boundary (o := 0) (k := n) fuel buf hp hn rfl (by omega) (by omega)
      hcur (clusterFor_more hp hne hfollow)
    have htaken : (if 0xff8 ≤ nextCluster12 s.fat x ∧ cl = 0 then none else some cl) = some cl :=
      if_neg (by omega)
    by_cases hread : n < 512 ∧ (s.takeNext x cl).bread cl = none
    · have hcode := (hfail cl htaken hread.1 hread.2).symm.trans hrun
      have : ediskRead = (n : Int) := congrArg Prod.fst (Option.some.inj hcode)
      exact absurd this (by unfold ediskRead; omega)
    · obtain ⟨data, -, hloop⟩ := hsome cl (((s.takeNext x cl).bread cl).getD buf) htaken fun hlt => by
        cases hblock : (s.takeNext x cl).bread cl with
        | none => exact absurd ⟨hlt, hblock⟩ hread
        | some _ => rfl
      have hdone : ∀ fuel (buf : Bytes) (u : Fs), writeLoop p fuel (n - n : Nat) (0 + n : Nat) buf u =
          some (((0 + n : Nat) : Int), u) := fun fuel buf u => by
        rw [Nat.sub_self]
        cases fuel <;> rfl
      rw [show ((0 : Nat) : Int) = 0 from rfl] at hloop
      obtain rfl := congrArg Prod.snd (Option.some.inj ((hdone _ _ _).symm.trans (hloop.symm.trans hrun)))
      refine ⟨cl, hlt, ?_, ?_⟩
      · rw [grown_fat]
        rfl
      · rw [grown_start]
        rfl

theorem FileGrowth.fileAt {l' lq cq : List Nat} {q : Nat} (h : FileGrowth p s t l l')
    (hq : FileAt s q lq cq) (hqp : q ≠ p) (hapart : ∀ x ∈ lq, x ∉ l) : FileAt t q lq cq := by
  have hvn := h.others q hqp
  have hnew : ∀ x ∈ lq, x ∉ l' := by
    intro x hx hx'
    have hfree := h.fresh x hx' (hapart x hx)
    exact hq.chain.ne_zero hx (mem_freeClusters.mp hfree).2
  have hbyte : ∀ i, i < fsize (s.vnodes q).data →
      fileByte s.toVolume lq i = fileByte t.toVolume lq i := by
    intro i hi
    have hlen := hq.chain.size_le
    have hlt : i / 512 < lq.length := by omega
    rw [fileByte_eq hlt, fileByte_eq hlt]
    refine congrFun (h.sectors _ fun c hc he => ?_).symm _
    obtain rfl : lq[i / 512] = c := by omega
    exact hnew _ (getElem_mem hlt) hc
  refine ⟨?_, by rw [hvn]; exact hq.exact, ?_⟩
  · rw [hvn]
    exact hq.chain.congr (fun x hx => h.table x (hnew x hx)) rfl rfl
  · rw [hvn, hq.content]
    exact map_congr_left fun i hi => hbyte i (mem_range.mp hi)

/-- The file at `p` with the clusters `l` and the content `c` is read back as it was written: a write of
    the first `n` bytes of `buf` at position `o` returns the position behind it, the content is the old one
    with the new bytes over it, the chain is as long as the size needs, and no other file has changed. -/
def ReadsBack (s : Fs) (p : Nat) (l c : List Nat) (o n : Nat) (buf : Bytes) : Prop :=
  ∃ t l', fat12VopWrite p o buf n s = some (((o + n : Nat) : Int), t) ∧
    FileAt t p l' (overwrite c o ((List.range n).map buf)) ∧
    Dirent.fsize (t.vnodes p).data = max c.length (o + n) ∧
    l'.length = (max c.length (o + n) + 511) / 512 ∧
    (∀ nb : Nat, max c.length (o + n) ≤ nb → nb < 2147483648 →
      fat12VopRead t p 0 nb =
        (((max c.length (o + n) : Nat) : Int), overwrite c o ((List.range n).map buf))) ∧
    ∀ q lq cq, q ≠ p → FileAt s q lq cq → (∀ x ∈ lq, x ∉ l) →
      FileAt t q lq cq ∧ fat12VopRead t q 0 cq.length = ((cq.length : Int), cq)

/-- A write at the start is right by accident: there is a second block, the bytes for the first one are
    there already, and so are those that go to the second one and are read. -/
def SameAtStart (v : Volume) (l c : List Nat) (n : Nat) (buf : Bytes) : Prop :=
  512 < max c.length n ∧ ∀ i < 512, i < n → fileByte v l i = buf i ∧
    (n ≤ i + 512 → i + 512 < c.length → fileByte v l (i + 512) = buf i)

section calls

variable {buf : Bytes} {s0 : Fs} {l' : List Nat}

theorem fat12VopWrite_eq (hp : p ≠ 0) (s : Fs) (o n : Nat) (buf : Bytes) :
    fat12VopWrite p o buf n s = writeLoop p n n o buf (s.setVnode p { s.vnodes p with changed := true }) := by
  rw [fat12VopWrite, bind_of_some (vnode_eq hp s)]
  rfl

/-- The state in which the loop of a write starts. -/
theorem FileAt.changed (h : FileAt s p l c) : ∃ s0, s0 = s.setVnode p { s.vnodes p with changed := true } ∧
    FileAt s0 p l c ∧ s0.toVolume = s.toVolume ∧ (s0.vnodes p).data = (s.vnodes p).data :=
  have hdata : ((s.setVnode p { s.vnodes p with changed := true }).vnodes p).data = (s.vnodes p).data := by
    rw [setVnode_same]
  ⟨_, rfl, h.congr rfl hdata, rfl, hdata⟩

theorem contents_eq_overwrite (hfile : FileAt s p l c) (ho : o ≤ c.length) :
    contents t.toVolume l' (max c.length (o + n)) = overwrite c o ((List.range n).map buf) ↔
      ∀ i, i < max c.length (o + n) → fileByte t.toVolume l' i =
        if o ≤ i ∧ i < o + n then buf (i - o) else fileByte s.toVolume l i := by
  have hc : c = (List.range c.length).map (fileByte s.toVolume l) := by
    rw [hfile.length]
    exact hfile.content
  have hright := map_range_overwrite (n := c.length) (m := n) (h := buf) (g := fileByte s.toVolume l)
    (f := fun i => if o ≤ i ∧ i < o + n then buf (i - o) else fileByte s.toVolume l i) ho fun _ _ => rfl
  rw [← hc] at hright
  rw [contents, ← hright, List.map_inj_left]
  exact forall_congr' fun i => by rw [List.mem_range]

theorem readsBack_of_run (hp : p ≠ 0) (hs : Healthy s.toVolume) (hfile : FileAt s p l c) (ho : o ≤ c.length)
    (hs0 : s0 = s.setVnode p { s.vnodes p with changed := true })
    (hrun : writeLoop p n n o buf s0 = some (((o + n : Nat) : Int), t)) (hgrow : FileGrowth p s0 t l l')
    (hchain : FileChain t.fat (t.vnodes p).data l')
    (hsize : fsize (t.vnodes p).data = max c.length (o + n))
    (hexact : l'.length = blocksFor (max c.length (o + n)))
    (hbytes : ∀ i, i < max c.length (o + n) → fileByte t.toVolume l' i =
      if o ≤ i ∧ i < o + n then buf (i - o) else fileByte s.toVolume l i) :
    ReadsBack s p l c o n buf := by
  have hvol : s0.toVolume = s.toVolume := by rw [hs0]; rfl
  have hothers : ∀ q, q ≠ p → s0.vnodes q = s.vnodes q := fun q hq => by rw [hs0, setVnode_ne hq]
  have hnew : FileAt t p l' (overwrite c o ((List.range n).map buf)) := by
    refine ⟨hchain, by rw [hsize]; exact hexact, ?_⟩
    rw [hsize]
    exact ((contents_eq_overwrite hfile ho).mpr hbytes).symm
  have ht : Healthy t.toVolume := hgrow.healthy (hvol ▸ hs)
  have hnewlen : (overwrite c o ((List.range n).map buf)).length = max c.length (o + n) := by
    rw [length_overwrite ho, length_map, length_range]
  refine ⟨t, l', (fat12VopWrite_eq hp s o n buf).trans (hs0 ▸ hrun), hnew, hsize, hexact, fun nb hle hnb => ?_,
    fun q lq cq hqp hq hapart => ?_⟩
  · rw [hnew.read ht (by omega) hnb, hnewlen]
  · have hqt := hgrow.fileAt (hq.congr hvol (by rw [hothers q hqp])) hqp hapart
    have hlast : lastCluster = 2848 := rfl
    have hqlen := hqt.length
    have hqsize := hqt.chain.size_le
    have hql := hqt.chain.length_le
    exact ⟨hqt, hqt.read ht (Nat.le_refl _) (by omega)⟩

theorem FileChain.unique {fat : FatTable} {d : Bytes} (h : FileChain fat d l) (h' : FileChain fat d l') :
    l = l' := by
  rcases h with ⟨h0, rfl⟩ | ⟨hne, b, hb, hchain, -⟩ <;> rcases h' with ⟨h0', rfl⟩ | ⟨hne', b', hb', hchain', -⟩
  · rfl
  · exact absurd h0 hne'
  · exact absurd h0' hne
  · obtain rfl : b = b' := by omega
    exact hchain.linked.unique hchain'.linked

theorem not_readsBack_short (hp : p ≠ 0) (hfile : FileAt s p l c) (hne : c ≠ []) (hn : 0 < n)
    (hshort : max c.length n ≤ 512) : ¬ ReadsBack s p l c 0 n buf := by
  rintro ⟨t, l', hrun, hnew, hsize, hlength, -⟩
  have hpos := length_pos_iff.mpr hne
  have hc := hfile.length
  obtain ⟨s0, hs0, ⟨hchain, -⟩, -, hdata⟩ := hfile.changed
  rw [fat12VopWrite_eq hp, ← hs0, Nat.zero_add] at hrun
  -- the chain is one cluster before and would have to be the same one afterwards
  obtain ⟨x, rfl⟩ := length_eq_one_iff.mp (show l.length = 1 by rw [hfile.exact, blocksFor]; omega)
  obtain ⟨y, rfl⟩ := length_eq_one_iff.mp (show l'.length = 1 by omega)
  rcases hchain with ⟨h0, -⟩ | ⟨-, b, hb, hchain, -⟩
  · rw [hdata] at h0
    omega
  rcases hnew.chain with ⟨h0, -⟩ | ⟨-, b', hb', hchain', -⟩
  · omega
  have htotal : totalSect = 2880 := rfl
  have hlast : lastCluster = 2848 := rfl
  obtain rfl : b = x := hchain.linked.1
  obtain rfl : b' = y := hchain'.linked.1
  have hin := hchain.inside b (mem_singleton_self b)
  obtain ⟨fuel, rfl⟩ : ∃ fuel, n = fuel + 1 := ⟨n - 1, by omega⟩
  obtain ⟨cl, hlt, hfat, hstart⟩ := writeLoop_start_links hp buf hn (by omega) (by rw [hdata, ← hc]; omega)
    (by rw [hb]; exact (show (((b : Int) % 65536).toNat) = b by omega)) hchain.linked.2.2 hrun
  obtain rfl : b' = b := by omega
  have hend : 0xff8 ≤ nextCluster12 t.fat b' := hchain'.linked.2.2
  rw [nextCluster12_data hin.1 hin.2, hfat, getClval12_set, if_pos rfl] at hend
  omega

theorem readsBack_start_iff (hp : p ≠ 0) (hs : Healthy s.toVolume) (hfile : FileAt s p l c) (hne : c ≠ [])
    (hn : 0 < n) (hroom : n ≤ 512 * (l.length + (freeClusters s.fat).card)) (hlong : 512 < max c.length n) :
    ReadsBack s p l c 0 n buf ↔ SameAtStart s.toVolume l c n buf := by
  have hpos := length_pos_iff.mpr hne
  have hc := hfile.length
  have hlen := hfile.chain.size_le
  obtain ⟨s0, hs0, hfile0, hvol, hdata⟩ := hfile.changed
  have hfat : s0.fat = s.fat := congrArg Volume.fat hvol
  obtain ⟨t, l', hrun, hgrow, hchain, hsize, hlength, hbytes⟩ := writeLoop_start hp buf (hvol ▸ hs) hfile0.chain
    (by rw [hdata, ← hc]; omega) hn (by rw [hfat]; omega)
  rw [hdata, ← hc] at hsize
  rw [hdata, ← hc, hvol] at hbytes
  have hexact : l'.length = blocksFor (max c.length n) := by
    have htwo : 2 ≤ blocksFor (max c.length n) := lt_blocksFor hlong
    rw [blocksFor_max] at htwo ⊢
    rw [hlength, hfile.exact, ← hc, max_left_comm, max_eq_right htwo]
  constructor
  · rintro ⟨u, l'', hrun', hnew, hsize', -⟩
    rw [fat12VopWrite_eq hp, ← hs0, Nat.zero_add] at hrun'
    obtain rfl : t = u := congrArg Prod.snd (Option.some.inj (hrun.symm.trans hrun'))
    obtain rfl := hchain.unique hnew.chain
    have hall := (contents_eq_overwrite (o := 0) hfile (Nat.zero_le _)).mp (hsize' ▸ hnew.content.symm)
    simp only [Nat.zero_add, Nat.sub_zero, Nat.zero_le, true_and] at hall
    refine ⟨hlong, fun i hi hin => ⟨?_, fun hcopy hlt => ?_⟩⟩
    · have h1 := hall i (by omega)
      rw [if_pos hin, hbytes i (by omega), if_neg (by omega), if_neg (by omega)] at h1
      exact h1
    · have h1 := hall (i + 512) (by omega)
      rw [if_neg (by omega), hbytes _ (by omega), if_neg (by omega), if_pos (by omega),
        Nat.add_sub_cancel] at h1
      exact h1.symm
  · rintro ⟨-, hsame⟩
    refine readsBack_of_run hp hs hfile (Nat.zero_le _) hs0 (by rw [Nat.zero_add]; exact hrun) hgrow hchain
      (by rw [Nat.zero_add]; exact hsize) (by rw [Nat.zero_add]; exact hexact) fun i hi => ?_
    simp only [Nat.zero_add, Nat.sub_zero, Nat.zero_le, true_and] at hi ⊢
    rw [hbytes i hi]
    by_cases hin : i < n
    · rw [if_pos hin]
      by_cases hfirst : i < 512
      · rw [if_neg (by omega), if_neg (by omega), (hsame i hfirst hin).1]
      · rw [if_pos (by omega)]
    · rw [if_neg hin, if_neg (by omega)]
      by_cases hcopy : 512 ≤ i ∧ i < 512 + min 512 n
      · have h2 := (hsame (i - 512) (by omega) (by omega)).2 (by omega) (by omega)
        rw [Nat.sub_add_cancel hcopy.1] at h2
        rw [if_pos hcopy, h2]
      · rw [if_neg hcopy]

end calls

/-- **When a file is read back as it was written**: just if the write does not begin at the start of a file
    that is not empty, or is right by accident. -/
theorem file_write_read (s : Fs) (p : Nat) (l c : List Nat) (o n : Nat) (buf : Bytes) (hp : p ≠ 0)
    (hs : Healthy s.toVolume) (hfile : FileAt s p l c) (ho : o ≤ c.length)
    (hroom : o + n ≤ 512 * (l.length + (freeClusters s.fat).card)) :
    ReadsBack s p l c o n buf ↔ (o ≠ 0 ∨ c = [] ∨ n = 0) ∨ SameAtStart s.toVolume l c n buf := by
  have hc := hfile.length
  by_cases hstart : o ≠ 0 ∨ c = [] ∨ n = 0
  · refine iff_of_true ?_ (.inl hstart)
    obtain ⟨s0, hs0, hfile0, hvol, hdata⟩ := hfile.changed
    have hfat : s0.fat = s.fat := congrArg Volume.fat hvol
    have hstart0 : o ≠ 0 ∨ fsize (s0.vnodes p).data = 0 ∨ n = 0 := by
      rw [hdata, ← hc, length_eq_zero_iff]
      exact hstart
    have hcall := writeLoop_content hp n n o s0 l buf (Nat.le_refl n) (hvol ▸ hs) hfile0.chain
      (by rw [hdata]; omega) hstart0 (hfat ▸ hroom)
    rw [hdata, ← hc, hvol] at hcall
    obtain ⟨t, l', hrun, hgrow, hchain, hsize, hlength, hbytes⟩ := hcall
    refine readsBack_of_run hp hs hfile ho hs0 hrun hgrow hchain hsize ?_ hbytes
    rw [hlength, hfile.exact, ← hc, blocksFor_max]
  · obtain ⟨h0, hne, hn⟩ : o = 0 ∧ c ≠ [] ∧ n ≠ 0 := by
      rw [not_or, not_or, not_not] at hstart
      exact hstart
    subst h0
    rw [or_iff_right hstart]
    rw [Nat.zero_add] at hroom
    by_cases hlong : 512 < max c.length n
    · exact readsBack_start_iff hp hs hfile hne (by omega) hroom hlong
    · exact iff_of_false (not_readsBack_short hp hfile hne (by omega) (by omega)) fun h => hlong h.1

/-- A volume with one open file: vnode 2, one byte in cluster 2. -/
def oneByteFile : Fs :=
  let s := mountroot (fun i => if i = 3 then 0xff else if i = 4 then 0x0f else 0) fun b =>
    if b = 33 then Bytes.ofList [65] else Bytes.zero
  { s with vnodes := fun p => if p = 2 then
      ⟨false, 1, 0, 0, 2, 1, Dirent.setFsize (Dirent.setStart Bytes.zero 2) 1⟩ else s.vnodes p }

theorem oneByteFile_fileAt : FileAt oneByteFile 2 [2] [65] := by
  refine ⟨.inr ⟨by decide, 2, by decide, ?_, by decide⟩, by decide, by decide⟩
  exact Chain.single (by decide) (by decide) (by decide)

theorem oneByteFile_room : 1 ≤ (freeClusters oneByteFile.fat).card :=
  Finset.card_pos.mpr ⟨3, mem_freeClusters.mpr ⟨by decide, by decide⟩⟩

/-- A second byte behind the first. -/
theorem file_write_read_append : ∃ t, fat12VopWrite 2 1 (Bytes.ofList [66]) 1 oneByteFile = some (2, t) ∧
    fat12VopRead t 2 0 2 = (2, [65, 66]) := by
  obtain ⟨t, l', hrun, -, -, -, hread, -⟩ := (file_write_read oneByteFile 2 [2] [65] 1 1 (Bytes.ofList [66])
    (by decide) (fun _ => rfl) oneByteFile_fileAt (by decide)
    (by have := oneByteFile_room; simp only [length_singleton]; omega)).mpr (.inl (.inl (by decide)))
  exact ⟨t, hrun, hread 2 (by decide) (by decide)⟩

/-- A byte written at the start of the file goes to its second block, which it gets for this; the file
    still reads as before. -/
theorem write_at_start_misses : FileAt oneByteFile 2 [2] [65] ∧ Healthy oneByteFile.toVolume ∧
    1 ≤ (freeClusters oneByteFile.fat).card ∧ overwrite [65] 0 [66] = [66] ∧
    ∃ t, fat12VopWrite 2 0 (Bytes.ofList [66]) 1 oneByteFile = some (1, t) ∧
      fat12VopRead t 2 0 1 = (1, [65]) ∧ getClval12 t.fat 2 = 3 := by
  obtain ⟨⟨_, t⟩, hrun, rfl, hobs⟩ : ∃ r ∈ fat12VopWrite 2 0 (Bytes.ofList [66]) 1 oneByteFile,
      r.1 = 1 ∧ fat12VopRead r.2 2 0 1 = (1, [65]) ∧ getClval12 r.2.fat 2 = 3 := by decide +kernel
  exact ⟨oneByteFile_fileAt, fun _ => rfl, oneByteFile_room, by decide, t, hrun, hobs⟩

end contents

end AtomOs
