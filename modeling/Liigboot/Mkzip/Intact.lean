import Liigboot.Mkzip.ReadBack

/-!
# When the archive arrives intact

The archive lies at the end of the image, the file that describes it at the end of
the last cluster. The two ends meet when the clusters fill the data area and the
archive fills its clusters; otherwise the file stops some sectors too early.
-/

namespace Liigboot.Mkzip

/-! ## The file of a successful run -/

theorem dumpHeader_congr {xs ys : List UInt8} (h : ∀ k, k < 0x3c → xs[k]? = ys[k]?) :
    dumpHeader xs = dumpHeader ys := by
  have hname : slice xs 0x36 6 = slice ys 0x36 6 := by
    apply List.ext_getElem?
    intro i
    rw [getElem?_slice, getElem?_slice]
    split
    · exact h _ (by omega)
    · rfl
  simp only [dumpHeader, Header.mk.injEq, hname, and_true]
  refine ⟨?_, ?_, ?_, ?_, ?_, ?_, ?_, ?_⟩
  all_goals exact readLe_congr xs ys fun i hi => h _ (by omega)

variable {h : Header}

theorem fatEntry_congr {xs ys : List UInt8} {c : Nat}
    (hb : ∀ i, i < 2 → xs[h.entryByte c + i]? = ys[h.entryByte c + i]?) :
    fatEntry h xs c = fatEntry h ys c := by
  rw [fatEntry, fatEntry]
  rw [Header.entryByte] at hb
  by_cases h16 : h.isFat16 = true
  · rw [if_pos h16] at hb
    rw [if_pos h16, if_pos h16, readLe_congr xs ys hb]
  · rw [if_neg h16] at hb
    rw [if_neg h16, if_neg h16, readLe_congr xs ys hb]

/-- Where the file of an archive of `n` bytes starts in the image. -/
def Header.fileOfs (h : Header) (n : Nat) : Nat := h.clusterOfs (h.startCluster n).toNat

/-- Reading the new entry back yields the sectors from its start cluster on. -/
theorem readFile_of_ok {pre : List UInt8} {n : Nat} {t : Gmtime} {e : Edited}
    (hh : dumpHeader pre = h) (hfits : h.TableFits) (hres : 0 < h.reservedSectorCount)
    (htakes : h.Takes n) (hlen : pre.length = h.dataStart * 512)
    (hok : addInstallZip pre n t = .ok e) (suf : List UInt8) :
    e.data.length = pre.length ∧
      readFile (e.data ++ suf) e.direntryOfs =
        slice (e.data ++ suf) (h.fileOfs n) (zipSectors n * 512) := by
  obtain ⟨-, hfat, hspc, hcc, d, direntry, hchain, hnew, hentry⟩ := addInstallZip_ok hok h hh
  obtain ⟨hsize, hstart, hbytes⟩ := direntryNew_ok hnew
  obtain ⟨hlo, hhi, hdata⟩ := addEntry_ok hsize hentry
  have hroom := htakes.room
  obtain ⟨c, hc⟩ : ∃ c : Nat, h.startCluster n = c := ⟨_, (Int.toNat_of_nonneg (by
    rw [Header.startCluster]
    omega)).symm⟩
  have hcount : (c : Int) + h.zipClusters n = h.clusterCount + 2 := by
    rw [← hc, Header.startCluster]
    omega
  rw [hc] at hchain
  have hset := addChain_chain hfits _ hchain
  have hdlen : d.length = pre.length := length_addChain hchain
  rw [hfat, Nat.one_mul] at hlo hhi
  have hrootEnd : e.direntryOfs + direntry.length ≤ d.length := by
    rw [hdlen, hlen, Header.dataStart, hfat]
    omega
  have helen : e.data.length = pre.length := by
    rw [hdata, length_blit hrootEnd, hdlen]
  refine ⟨helen, ?_⟩
  -- in front of the root directory only the table has changed
  have hfront : ∀ k, k < (h.reservedSectorCount + h.sectorsPerFat) * 512 →
      (e.data ++ suf)[k]? = d[k]? := by
    intro k hk
    rw [List.getElem?_append_left (by omega), hdata,
      getElem?_blit_of_lt (by omega) (by omega)]
  have hheader : dumpHeader (e.data ++ suf) = h := by
    rw [← hh]
    apply dumpHeader_congr
    intro k hk
    rw [hfront k (by omega)]
    exact hset.outside k (by omega)
  have hfield : ∀ a m, a + m ≤ 32 →
      readLe (e.data ++ suf) (e.direntryOfs + a) m = readLe direntry a m := by
    intro a m ham
    rw [readLe_append suf (by omega), hdata]
    rw [readLe, readLe]
    congr 1
    apply List.ext_getElem?
    intro i
    rw [getElem?_slice, getElem?_slice]
    split
    · rw [getElem?_blit_of_mem (by omega) (by omega) (by omega)]
      congr 1
      omega
    · rfl
  have hcluster : ∀ k, c ≤ k → k + 1 < c + h.zipClusters n →
      fatEntry h (e.data ++ suf) k = k + 1 := by
    intro k hk hlast
    have hcl : h.isCluster k = true := by
      simp only [Header.isCluster, Bool.and_eq_true, decide_eq_true_eq]
      omega
    have hbyte := hfits.entry k hcl
    rw [fatEntry_congr fun i hi => hfront _ (by omega)]
    exact hset.chain k hk (by omega) (by omega)
  have hsectors := Nat.mul_le_mul_right 512 (zipSectors_le hspc n)
  rw [readFile, hheader]
  rw [hfield 26 2 (by omega), hfield 28 4 (by omega), hstart, hbytes, zipClusters_eq hspc, hc,
    Int.toNat_natCast, readChain_run _ _ (by omega) hcluster, Header.fileOfs, hc,
    Int.toNat_natCast, slice, slice, List.take_take, Nat.min_eq_left]
  rwa [← Nat.mul_assoc]

/-! ## Boot images -/

/-- A boot image that is a FAT12 or a FAT16 volume: the boot sector is reserved, the table has
an entry for each cluster, and the image ends with the last sector. -/
structure IsVolume (img : List UInt8) : Prop where
  name : slice img 0x36 6 = fat12Name ∨ slice img 0x36 6 = fat16Name
  length_eq : img.length = (dumpHeader img).sectorCount3 * 512
  reserved : 0 < (dumpHeader img).reservedSectorCount
  fits : (dumpHeader img).TableFits

/-- The header on which the archive is accepted puts it into the data area. -/
theorem dataStart_add_le {n size : Nat} (hsize : h.sectorCount3 * 512 ≤ size) (ht : h.Takes n) :
    h.dataStart * 512 + n ≤ size := by
  obtain ⟨hlt, hcc⟩ := clusterCount_eq ht.perCluster ht.clusters
  have hsectors := zipSectors_le ht.perCluster n
  have hroom := ht.room
  rw [hcc] at hroom
  have hclusters := Nat.mul_le_mul_right h.sectorsPerCluster (Int.ofNat_le.mp hroom)
  have hfloor := Nat.div_mul_le_self h.dataSectors h.sectorsPerCluster
  have hdata : h.dataStart + h.dataSectors = h.sectorCount3 := by
    rw [Header.dataSectors]
    omega
  have hzip : n ≤ zipSectors n * 512 := by
    rw [zipSectors]
    omega
  have harea : zipSectors n ≤ h.dataSectors := hsectors.trans (hclusters.trans hfloor)
  rw [← hdata, Nat.add_mul] at hsize
  exact Nat.le_trans (Nat.add_le_add_left (hzip.trans (Nat.mul_le_mul_right 512 harea)) _) hsize

/-- The name of the file system stops the archive from reaching into the header. -/
theorem header_in_front {img : List UInt8}
    (hname : slice img 0x36 6 = fat12Name ∨ slice img 0x36 6 = fat16Name) {n : Nat} (hn : 0 < n)
    (htail : (tailOf img n).any (· ≠ 0) = false) : 0x3c ≤ img.length - n := by
  by_contra hlt
  have hbyte : (slice img 0x36 6)[5]? = some 0x20 := by
    rcases hname with hname | hname
    · rw [hname]
      rfl
    · rw [hname]
      rfl
  rw [getElem?_slice, if_pos (by omega)] at hbyte
  have hmem : (0x20 : UInt8) ∈ tailOf img n := by
    rw [tailOf, if_neg hn.ne']
    apply List.mem_of_getElem? (i := 0x3b - (img.length - n))
    rw [List.getElem?_drop, ← hbyte]
    congr 1
    omega
  rw [List.any_eq_false] at htail
  exact htail _ hmem (by decide)

/-- The image in front of its data area. -/
def front (img : List UInt8) : List UInt8 := img.take ((dumpHeader img).dataStart * 512)

/-- The part of the data area that the archive of `n` bytes leaves alone. -/
def middle (img : List UInt8) (n : Nat) : List UInt8 :=
  (img.take (img.length - n)).drop ((dumpHeader img).dataStart * 512)

/-- An image that took some archive of `n` bytes. -/
structure Takes (img : List UInt8) (n : Nat) : Prop where
  pos : 0 < n
  tail : (tailOf img n).any (· ≠ 0) = false
  header : (dumpHeader img).Takes n

theorem takes_of_mkzip {img zip : List UInt8}
    (hname : slice img 0x36 6 = fat12Name ∨ slice img 0x36 6 = fat16Name) {t : Gmtime} {r : Edited}
    (hok : mkzip img zip t = .ok r) :
    Takes img zip.length ∧ dumpHeader (headOf img zip.length ++ zip) = dumpHeader img ∧
      addInstallZip (headOf img zip.length ++ zip) zip.length t = .ok r := by
  rw [mkzip] at hok
  split at hok
  · cases hok
  · rename_i hroom
    rw [not_or, not_lt] at hroom
    obtain ⟨hle, htail⟩ := hroom
    rw [Bool.not_eq_true] at htail
    have hpos : 0 < zip.length := by
      apply Nat.pos_of_ne_zero
      intro hzero
      obtain ⟨hjump, -⟩ := addInstallZip_ok hok _ rfl
      rw [headOf, if_pos hzero, List.length_eq_zero_iff.mp hzero] at hjump
      cases hjump
    have hfront := header_in_front hname hpos htail
    have hheader : dumpHeader (headOf img zip.length ++ zip) = dumpHeader img := by
      apply dumpHeader_congr
      intro k hk
      rw [headOf, if_neg hpos.ne', List.getElem?_append_left, List.getElem?_take, if_pos (by omega)]
      rw [List.length_take]
      omega
    exact ⟨⟨hpos, htail, hheader ▸ takes_of_ok hpos hok⟩, hheader, hok⟩

theorem bootSector_in_front (hres : 0 < h.reservedSectorCount) : 512 ≤ h.dataStart * 512 := by
  rw [Header.dataStart]
  omega

theorem rootdir_in_front (h : Header) :
    (h.reservedSectorCount + h.fatCount * h.sectorsPerFat) * 512 + 32 * h.rootdirEntryCount ≤
      h.dataStart * 512 := by
  rw [Header.dataStart]
  omega

/-- The script reads at most one byte more than the two that hold an entry. -/
theorem entryOfs_le (h : Header) (c : Nat) :
    h.entryOfs c + (if h.isFat16 then 2 else 3) ≤ h.entryByte c + 3 := by
  rw [Header.entryByte, Header.entryOfs]
  split
  · omega
  · omega

/-- The entries of a table that fits lie in front of the data area, because a root directory
follows the table. -/
theorem entries_of_fits (hfits : h.TableFits) (hfat : h.fatCount = 1)
    (hroot : 0 < h.rootdirEntryCount) : h.Entries (h.dataStart * 512) := by
  intro i hi
  have hnonneg : 0 ≤ i := by
    simp only [Header.isCluster, Bool.and_eq_true, decide_eq_true_eq] at hi
    omega
  have hbyte := hfits.entry i.toNat ((Int.toNat_of_nonneg hnonneg).symm ▸ hi)
  have hread := entryOfs_le h i.toNat
  rw [Header.dataStart, hfat]
  omega

/-- The script works on the front of the image; the rest and the archive just follow. -/
theorem mkzip_eq {img zip : List UInt8} (hv : IsVolume img) (ht : Takes img zip.length)
    (t : Gmtime) : mkzip img zip t = (addInstallZip (front img) zip.length t).map fun e =>
      ⟨e.data ++ (middle img zip.length ++ zip), e.direntryOfs⟩ := by
  have hroom := dataStart_add_le hv.length_eq.ge ht.header
  have hstart := Nat.le_sub_of_add_le hroom
  have hlen : (front img).length = (dumpHeader img).dataStart * 512 := by
    rw [front, List.length_take]
    omega
  have hres : 512 ≤ (front img).length := hlen ▸ bootSector_in_front hv.reserved
  have hheader : dumpHeader (front img) = dumpHeader img := by
    apply dumpHeader_congr
    intro k hk
    rw [front, List.getElem?_take, if_pos (by omega)]
  have hhead : headOf img zip.length ++ zip = front img ++ (middle img zip.length ++ zip) := by
    have hsplit := List.take_append_drop ((dumpHeader img).dataStart * 512)
      (img.take (img.length - zip.length))
    rw [List.take_take, Nat.min_eq_left hstart] at hsplit
    rw [headOf, if_neg ht.pos.ne', ← List.append_assoc, front, middle, hsplit]
  have hentries : (dumpHeader (front img)).Entries (front img).length := by
    rw [hheader, hlen]
    exact entries_of_fits hv.fits ht.header.fatCount ht.header.rootdir
  rw [mkzip, if_neg, hhead, addInstallZip_append (Nat.le_trans (by decide) hres) hentries]
  · rw [hheader, hlen]
    exact rootdir_in_front _
  · rw [ht.tail]
    rintro (hlong | hbad)
    · omega
    · exact Bool.false_ne_true hbad

/-! ## The slack -/

/-- The sectors behind the file: what does not fill a cluster of the data area, and what the
archive leaves free in its last cluster. -/
def Header.slack (h : Header) (n : Nat) : Nat :=
  h.dataSectors % h.sectorsPerCluster + (h.zipClusters n * h.sectorsPerCluster - zipSectors n)

/-- The clusters fill the data area and an archive of `n` bytes fills its clusters. -/
structure Header.Aligned (h : Header) (n : Nat) : Prop where
  dataArea : h.sectorsPerCluster ∣ h.sectorCount3 - h.dataStart
  archive : h.sectorsPerCluster ∣ zipSectors n

theorem slack_eq_zero_iff (hspc : 0 < h.sectorsPerCluster) (n : Nat) :
    h.slack n = 0 ↔ h.Aligned n := by
  have hle := zipSectors_le hspc n
  constructor
  · intro hzero
    rw [Header.slack] at hzero
    refine ⟨Nat.dvd_of_mod_eq_zero (by rw [← Header.dataSectors]; omega), ?_⟩
    exact ⟨h.zipClusters n, by rw [Nat.mul_comm]; omega⟩
  · rintro ⟨hdata, k, hk⟩
    have hmod : h.dataSectors % h.sectorsPerCluster = 0 := Nat.mod_eq_zero_of_dvd hdata
    have hclusters : h.zipClusters n = k := by
      rw [Header.zipClusters, hk, Nat.add_sub_assoc hspc, Nat.mul_add_div hspc,
        Nat.div_eq_of_lt (Nat.sub_lt hspc Nat.one_pos), Nat.add_zero]
    rw [Header.slack, hmod, hclusters, hk, Nat.mul_comm k]
    omega

/-- The file and the slack end with the image. -/
theorem fileOfs_add {img : List UInt8} (hv : IsVolume img) {n : Nat}
    (ht : (dumpHeader img).Takes n) :
    (dumpHeader img).fileOfs n + zipSectors n * 512 + (dumpHeader img).slack n * 512 =
      img.length := by
  generalize hh : dumpHeader img = h at ht ⊢
  obtain ⟨hlt, hcc⟩ := clusterCount_eq ht.perCluster ht.clusters
  have hroom := ht.room
  rw [hcc] at hroom
  have hclusters := Nat.mul_le_mul_right h.sectorsPerCluster (Int.ofNat_le.mp hroom)
  have hle := zipSectors_le ht.perCluster n
  have hdiv := Nat.div_add_mod h.dataSectors h.sectorsPerCluster
  have hstart : (h.startCluster n).toNat - 2 =
      h.dataSectors / h.sectorsPerCluster - h.zipClusters n := by
    rw [Header.startCluster, hcc]
    omega
  have hdata : h.dataStart + h.dataSectors = h.sectorCount3 := by
    rw [Header.dataSectors]
    omega
  rw [Header.fileOfs, Header.clusterOfs, hstart, Nat.sub_mul, Header.slack, hv.length_eq, hh]
  rw [Nat.mul_comm] at hdiv
  omega

/-! ## The archive in the file -/

/-- A file that ends where the image ends has the archive at its end. -/
private theorem intact_of_slack {zip : List UInt8} {r : Edited} {ofs n : Nat}
    (hn : zip.length = n) {base : List UInt8} (hdata : r.data = base ++ zip)
    (hread : readFile r.data r.direntryOfs = slice r.data ofs (zipSectors n * 512))
    (hend : ofs + zipSectors n * 512 = r.data.length) : Intact r zip := by
  have hround : n ≤ zipSectors n * 512 ∧ zipSectors n * 512 < n + 512 := by
    rw [zipSectors]
    omega
  have hbase : ofs ≤ base.length := by
    rw [hdata, List.length_append] at hend
    omega
  refine ⟨base.drop ofs, ?_, ?_⟩
  · rw [hread, slice, List.take_of_length_le, hdata, List.drop_append_of_le_length hbase]
    rw [List.length_drop]
    omega
  · rw [hdata, List.length_append] at hend
    rw [List.length_drop]
    omega

/-- The last byte of an intact archive is the last byte of its file. -/
private theorem last_of_intact {zip : List UInt8} {r : Edited} {ofs n : Nat}
    (hn : zip.length = n) (hpos : 0 < n)
    (hread : readFile r.data r.direntryOfs = slice r.data ofs (zipSectors n * 512))
    (hend : ofs + zipSectors n * 512 ≤ r.data.length) (hi : Intact r zip) :
    r.data[ofs + zipSectors n * 512 - 1]? = zip[n - 1]? := by
  obtain ⟨start, hfile, -⟩ := hi
  rw [hread] at hfile
  have hround : n ≤ zipSectors n * 512 := by
    rw [zipSectors]
    omega
  have hlen := congrArg List.length hfile
  rw [length_slice, List.length_append, hn] at hlen
  have hlast := congrArg (fun file => file[zipSectors n * 512 - 1]?) hfile
  simp only [getElem?_slice] at hlast
  rw [if_pos (by omega), List.getElem?_append_right (by omega)] at hlast
  have hsrc : ofs + zipSectors n * 512 - 1 = ofs + (zipSectors n * 512 - 1) := by omega
  have hdst : zipSectors n * 512 - 1 - start.length = n - 1 := by omega
  rw [hsrc, hlast, hdst]

/-- What the script leaves, with the archive as its last part. -/
def edited (img : List UInt8) (e : Edited) (zip : List UInt8) : Edited :=
  ⟨e.data ++ middle img zip.length ++ zip, e.direntryOfs⟩

/-- Any archive of a length that was accepted once is accepted, with the same edits. -/
private theorem mkzip_edited {img zip : List UInt8} (hv : IsVolume img)
    (ht : Takes img zip.length) {t : Gmtime} {e : Edited}
    (he : addInstallZip (front img) zip.length t = .ok e) :
    mkzip img zip t = .ok (edited img e zip) := by
  rw [mkzip_eq hv ht, he, edited, List.append_assoc]
  rfl

/-- The file of the new entry, in an image of the old length. -/
private theorem readFile_edited {img zip : List UInt8} (hv : IsVolume img)
    (ht : Takes img zip.length) {t : Gmtime} {e : Edited}
    (he : addInstallZip (front img) zip.length t = .ok e) :
    (edited img e zip).data.length = img.length ∧
      readFile (edited img e zip).data e.direntryOfs = slice (edited img e zip).data
        ((dumpHeader img).fileOfs zip.length) (zipSectors zip.length * 512) := by
  have hroom := dataStart_add_le hv.length_eq.ge ht.header
  have hlen : (front img).length = (dumpHeader img).dataStart * 512 := by
    rw [front, List.length_take]
    omega
  have hheader : dumpHeader (front img) = dumpHeader img := by
    have hboot := bootSector_in_front hv.reserved
    apply dumpHeader_congr
    intro k hk
    rw [front, List.getElem?_take, if_pos (Nat.lt_of_lt_of_le hk (Nat.le_trans (by decide) hboot))]
  obtain ⟨helen, hread⟩ := readFile_of_ok hheader hv.fits hv.reserved ht.header hlen he
    (middle img zip.length ++ zip)
  refine ⟨?_, ?_⟩
  · rw [edited, List.length_append, List.length_append, helen, hlen, middle, List.length_drop,
      List.length_take]
    omega
  · rw [edited, List.append_assoc]
    exact hread

/-- On a volume that accepts archives of `n` bytes every such archive arrives intact exactly when
clusters, data area and archive are aligned. -/
theorem intact_iff_aligned {img : List UInt8} (hv : IsVolume img) {n : Nat} {t : Gmtime}
    (hacc : ∃ zip r, zip.length = n ∧ mkzip img zip t = .ok r) :
    (∀ zip r, zip.length = n → mkzip img zip t = .ok r → Intact r zip) ↔
      (dumpHeader img).Aligned n := by
  obtain ⟨zip₀, r₀, rfl, hok₀⟩ := hacc
  have ht := (takes_of_mkzip hv.name hok₀).1
  obtain ⟨e, he⟩ : ∃ e, addInstallZip (front img) zip₀.length t = .ok e := by
    rw [mkzip_eq hv ht] at hok₀
    cases he : addInstallZip (front img) zip₀.length t with
    | error err => rw [he] at hok₀; cases hok₀
    | ok e => exact ⟨e, rfl⟩
  have hend := fileOfs_add hv ht.header
  rw [← slack_eq_zero_iff ht.header.perCluster]
  constructor
  · intro hall
    by_contra hslack
    -- two archives that differ in their last byte leave the same last byte in the file
    have hlast : ∀ b : UInt8,
        (e.data ++ middle img zip₀.length ++ List.replicate (zip₀.length - 1) 0)[
          (dumpHeader img).fileOfs zip₀.length + zipSectors zip₀.length * 512 - 1]? = some b := by
      intro b
      have hzlen : (List.replicate (zip₀.length - 1) 0 ++ [b]).length = zip₀.length := by
        rw [List.length_append, List.length_replicate, List.length_singleton]
        exact Nat.sub_add_cancel ht.pos
      have hmk := mkzip_edited hv (hzlen.symm ▸ ht) (hzlen.symm ▸ he)
      obtain ⟨hlen, hread⟩ := readFile_edited hv (hzlen.symm ▸ ht) (hzlen.symm ▸ he)
      rw [hzlen] at hread
      have hbyte := last_of_intact hzlen ht.pos hread (by omega) (hall _ _ hzlen hmk)
      have hzip : (List.replicate (zip₀.length - 1) 0 ++ [b])[zip₀.length - 1]? = some b := by
        rw [List.getElem?_append_right (by rw [List.length_replicate]), List.length_replicate,
          Nat.sub_self]
        rfl
      rw [hzip, edited, hzlen, ← List.append_assoc, List.getElem?_append_left] at hbyte
      · exact hbyte
      · rw [edited, hzlen, ← List.append_assoc, List.length_append,
          List.length_singleton] at hlen
        omega
    have hsame := (hlast 0).symm.trans (hlast 1)
    cases hsame
  · intro hslack zip r hn hok
    rw [← hn] at he ht hend hslack
    obtain ⟨hlen, hread⟩ := readFile_edited hv ht he
    rw [mkzip_edited hv ht he] at hok
    cases hok
    exact intact_of_slack rfl rfl hread (by omega)

/-! ## Two small volumes -/

/-- A FAT12 image with one reserved sector, one sector of table and one of root directory. -/
def smallImage (sectorsPerCluster sectorCount : UInt8) : List UInt8 :=
  jump ++ List.replicate 8 0 ++
    [0, 2, sectorsPerCluster, 1, 0, 1, 16, 0, sectorCount, 0, 0xf8, 1, 0, 32, 0, 64, 0] ++
    List.replicate 26 0 ++ fat12Name ++ List.replicate (sectorCount.toNat * 512 - 0x3c) 0

/-- The header of such an image. -/
def smallHeader (sectorsPerCluster sectorCount : Nat) : Header :=
  ⟨512, sectorsPerCluster, 1, 1, 16, sectorCount, 1, 0, false⟩

private theorem smallImage_isVolume {spc sc : UInt8} {cc : Nat}
    (hh : dumpHeader (smallImage spc sc) = smallHeader spc.toNat sc.toNat)
    (hsc : 0 < sc.toNat) (hcc : (smallHeader spc.toNat sc.toNat).clusterCount = cc)
    (hle : cc ≤ 300) : IsVolume (smallImage spc sc) := by
  constructor
  · left
    rfl
  · rw [hh]
    simp only [smallImage, smallHeader, jump, fat12Name, Header.sectorCount3, List.length_append,
      List.length_replicate, List.length_cons, List.length_nil, ne_eq, hsc.ne',
      not_false_eq_true, if_true]
    omega
  · rw [hh]
    exact Nat.one_pos
  · rw [hh]
    constructor
    · intro c hc
      simp only [Header.isCluster, hcc, Bool.and_eq_true, decide_eq_true_eq] at hc
      simp only [Header.entryByte, smallHeader, Bool.false_eq_true, if_false]
      omega
    · intro c hc
      simp only [Header.isCluster, hcc, Bool.and_eq_true, decide_eq_true_eq] at hc
      simp only [Header.entryMax, smallHeader, Bool.false_eq_true, if_false]
      omega

/-- The day the script was written. -/
def buildTime : Gmtime := ⟨2017, 12, 21, 23, 56, 14⟩

/-- Two clusters of one sector each take an archive of 600 bytes intact. -/
theorem intact_iff_aligned_oneSector :
    IsVolume (smallImage 1 5) ∧
      ∀ zip r, zip.length = 600 → mkzip (smallImage 1 5) zip buildTime = .ok r →
        Intact r zip := by
  have hh : dumpHeader (smallImage 1 5) = smallHeader 1 5 := by decide +kernel
  have hv : IsVolume (smallImage 1 5) :=
    @smallImage_isVolume 1 5 2 hh (by decide) (by decide) (by decide)
  have hok : (mkzip (smallImage 1 5) (List.replicate 600 0x50) buildTime).isOk = true := by
    decide +kernel
  refine ⟨hv, (intact_iff_aligned hv ?_).mpr ?_⟩
  · cases hr : mkzip (smallImage 1 5) (List.replicate 600 0x50) buildTime with
    | error err => rw [hr] at hok; cases hok
    | ok r => exact ⟨_, r, List.length_replicate, hr⟩
  · rw [hh]
    exact ⟨one_dvd _, one_dvd _⟩

/-- In the only cluster of four sectors an archive of 600 bytes ends up outside its file. -/
theorem fourSectors_not_intact :
    ¬ ∀ img zip t r, IsVolume img → mkzip img zip t = .ok r → Intact r zip := by
  intro hall
  have hh : dumpHeader (smallImage 4 7) = smallHeader 4 7 := by decide +kernel
  have hv : IsVolume (smallImage 4 7) :=
    @smallImage_isVolume 4 7 1 hh (by decide) (by decide) (by decide)
  have hlast : (mkzip (smallImage 4 7) (List.replicate 600 0x50) buildTime).toOption.map
      (fun r => (readFile r.data r.direntryOfs).getLast?) = some (some 0) := by
    decide +kernel
  cases hr : mkzip (smallImage 4 7) (List.replicate 600 0x50) buildTime with
  | error err => rw [hr] at hlast; cases hlast
  | ok r =>
    rw [hr] at hlast
    obtain ⟨start, hfile, -⟩ := hall _ _ _ r hv hr
    rw [Except.toOption, Option.map_some, hfile, List.getLast?_append, List.getLast?_replicate,
      if_neg (by decide)] at hlast
    cases hlast

end Liigboot.Mkzip
