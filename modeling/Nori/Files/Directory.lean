import Nori.Files.FileSystem

/-!
# Directories as tables

What a directory has is written as a table of names and contents. Some names can be hidden: a file
of such a name may be there or not. Each step changes the table in one place.
-/

namespace Files

open List

/-- Names and contents. -/
abbrev Table (ν : Type) := List (ν × List UInt8)

/-- A disk has this record and, but for hidden names, exactly these files. -/
structure Shows {ν μ : Type} (hidden : ν → Prop) (record : Option μ) (table : Table ν)
    (d : Disk ν μ) : Prop where
  record_eq : d.record = record
  files_iff : ∀ name content, ¬ hidden name →
    (d.files name = some content ↔ (name, content) ∈ table)

/-- A disk has a record and files with a property. -/
def Shown {ν μ : Type} (hidden : ν → Prop) (P : Option μ → Table ν → Prop) (d : Disk ν μ) : Prop :=
  ∃ record table, P record table ∧ Shows hidden record table d

variable {ν μ : Type} [DecidableEq ν] {hidden : ν → Prop} {record record' : Option μ}
  {table A B : Table ν} {d : Disk ν μ} {name new : ν} {content content' : List UInt8}

namespace Shows

omit [DecidableEq ν] in
theorem file (h : Shows hidden record (A ++ (name, content) :: B) d) (hname : ¬ hidden name) :
    d.files name = some content :=
  (h.files_iff name content hname).mpr (mem_append_right A mem_cons_self)

omit [DecidableEq ν] in
theorem congr_disk {d' : Disk ν μ} (h : Shows hidden record table d)
    (hrecord : d'.record = d.record) (hfiles : ∀ n, ¬ hidden n → d'.files n = d.files n) :
    Shows hidden record table d' :=
  ⟨hrecord.trans h.record_eq, fun n c hn => by rw [hfiles n hn]; exact h.files_iff n c hn⟩

theorem put_hidden (h : Shows hidden record table d) (hname : hidden name)
    (c : Option (List UInt8)) : Shows hidden record table (d.put name c) := by
  refine h.congr_disk rfl fun n hn => d.put_of_ne c ?_
  rintro rfl
  exact hn hname

/-- A file that is new. -/
theorem insert (h : Shows hidden record (A ++ B) d) (hfresh : name ∉ (A ++ B).map Prod.fst) :
    Shows hidden record (A ++ (name, content) :: B) (d.put name (some content)) := by
  refine ⟨h.record_eq, fun n c hn => ?_⟩
  have hmem : (n, c) ∈ A ++ (name, content) :: B ↔ (n = name ∧ c = content) ∨ (n, c) ∈ A ++ B := by
    simp only [mem_append, mem_cons, Prod.mk.injEq]
    tauto
  rw [hmem]
  by_cases hname : n = name
  · subst hname
    have hnot : (n, c) ∉ A ++ B := fun hin => hfresh (mem_map_of_mem hin)
    rw [Disk.put_self, Option.some.injEq]
    exact ⟨fun hc => .inl ⟨rfl, hc.symm⟩, fun hor => (hor.resolve_right hnot).2.symm⟩
  · rw [d.put_of_ne _ hname, h.files_iff n c hn]
    exact ⟨.inr, fun hor => hor.resolve_left fun hc => hname hc.1⟩

section

variable (h : Shows hidden record (A ++ (name, content) :: B) d)
  (hfresh : name ∉ (A ++ B).map Prod.fst)
include h hfresh

/-- A file that is there no more. -/
theorem remove : Shows hidden record (A ++ B) (d.put name none) := by
  refine ⟨h.record_eq, fun n c hn => ?_⟩
  by_cases hname : n = name
  · subst hname
    have hnot : (n, c) ∉ A ++ B := fun hin => hfresh (mem_map_of_mem hin)
    rw [Disk.put_self]
    exact ⟨nofun, fun hin => absurd hin hnot⟩
  · rw [d.put_of_ne _ hname, h.files_iff n c hn]
    simp only [mem_append, mem_cons, Prod.mk.injEq, hname, false_and, false_or]

/-- A file with another content. -/
theorem replace :
    Shows hidden record (A ++ (name, content') :: B) (d.put name (some content')) := by
  have hput : Shows hidden record (A ++ (name, content') :: B) _ := (h.remove hfresh).insert hfresh
  rwa [Disk.put_put] at hput

end

end Shows

/-! ## Steps -/

namespace FileSystem

variable {env : Env} {fs : FileSystem ν μ} {P : Option μ → Table ν → Prop}

/-- The second file system shows a table, and all disks on the way have a property. -/
abbrev Reaches (fs : FileSystem ν μ) (hidden : ν → Prop) (P : Option μ → Table ν → Prop)
    (record : Option μ) (table : Table ν) (fs' : FileSystem ν μ) : Prop :=
  Shows hidden record table fs'.disk ∧ Via (Shown hidden P) fs fs'

theorem exec_shows {step : Step ν μ} {table' : Table ν} (henv : env.Reliable)
    (h : Shows hidden record table fs.disk) (happly : fs.disk.apply step = some d)
    (h' : Shows hidden record' table' d) (hb : P record table) (ha : P record' table') :
    ∃ fs', fs.exec env step = (true, fs') ∧ fs.Reaches hidden P record' table' fs' :=
  ⟨_, exec_of_apply henv happly, h', .exec happly ⟨_, _, hb, h⟩ ⟨_, _, ha, h'⟩⟩

section

variable (henv : env.Reliable)
include henv

theorem exec_create (h : Shows hidden record (A ++ B) fs.disk)
    (hfresh : name ∉ (A ++ B).map Prod.fst) (hb : P record (A ++ B))
    (ha : P record (A ++ (name, []) :: B)) :
    ∃ fs', fs.exec env (.create name) = (true, fs') ∧
      fs.Reaches hidden P record (A ++ (name, []) :: B) fs' :=
  exec_shows henv h rfl (h.insert hfresh) hb ha

theorem exec_save (h : Shows hidden record table fs.disk) (m : μ)
    (hb : P record table) (ha : P (some m) table) :
    ∃ fs', fs.exec env (.save m) = (true, fs') ∧ fs.Reaches hidden P (some m) table fs' :=
  exec_shows henv h rfl ⟨rfl, h.files_iff⟩ hb ha

variable (h : Shows hidden record (A ++ (name, content) :: B) fs.disk) (hname : ¬ hidden name)
include h hname

section

variable (hfresh : name ∉ (A ++ B).map Prod.fst)
include hfresh

theorem exec_rename (hnew : new ∉ (A ++ B).map Prod.fst)
    (hb : P record (A ++ (name, content) :: B)) (ha : P record (A ++ (new, content) :: B)) :
    ∃ fs', fs.exec env (.rename name new) = (true, fs') ∧
      fs.Reaches hidden P record (A ++ (new, content) :: B) fs' := by
  refine exec_shows henv h ?_ ((h.remove hfresh).insert hnew) hb ha
  rw [Disk.apply, h.file hname]
  rfl

theorem exec_hide (hnew : hidden new)
    (hb : P record (A ++ (name, content) :: B)) (ha : P record (A ++ B)) :
    ∃ fs', fs.exec env (.rename name new) = (true, fs') ∧
      fs.Reaches hidden P record (A ++ B) fs' := by
  refine exec_shows henv h ?_ ((h.remove hfresh).put_hidden hnew (some content)) hb ha
  rw [Disk.apply, h.file hname]
  rfl

theorem exec_truncate (size : ℕ) (hb : P record (A ++ (name, content) :: B))
    (ha : P record (A ++ (name, content.take size) :: B)) :
    ∃ fs', fs.exec env (.truncate name size) = (true, fs') ∧
      fs.Reaches hidden P record (A ++ (name, content.take size) :: B) fs' := by
  refine exec_shows henv h ?_ (h.replace hfresh) hb ha
  rw [Disk.apply, h.file hname]
  rfl

end

theorem exec_sync (hb : P record (A ++ (name, content) :: B)) :
    ∃ fs', fs.exec env (.sync name) = (true, fs') ∧
      fs.Reaches hidden P record (A ++ (name, content) :: B) fs' := by
  refine exec_shows henv h ?_ h hb hb
  rw [Disk.apply, h.file hname]
  rfl

end

theorem exec_unlink_hidden (env : Env) (h : Shows hidden record table fs.disk) (hname : hidden name)
    (hb : P record table) :
    Shows hidden record table (fs.exec env (.unlink name)).2.disk ∧
      Via (Shown hidden P) fs (fs.exec env (.unlink name)).2 := by
  have hstay : ∀ tried, Via (Shown hidden P) fs { fs with tried } := fun tried =>
    ⟨[], (append_nil _).symm, ⟨_, _, hb, h⟩, rfl⟩
  unfold exec
  split_ifs
  · exact ⟨h, hstay _⟩
  · cases hfile : fs.disk.files name with
    | none =>
      rw [Disk.apply, hfile]
      exact ⟨h, hstay _⟩
    | some c =>
      have happly : fs.disk.apply (.unlink name) = some (fs.disk.put name none) := by
        rw [Disk.apply, hfile]
        rfl
      have h' := h.put_hidden hname none
      rw [happly]
      exact ⟨h', .exec happly ⟨_, _, hb, h⟩ ⟨_, _, hb, h'⟩⟩

theorem writeAll_shows (henv : env.Reliable)
    (h : Shows hidden record (A ++ (name, content) :: B) fs.disk) (hname : ¬ hidden name)
    (hfresh : name ∉ (A ++ B).map Prod.fst) (data : List UInt8)
    (hP : ∀ part, part <+: data → P record (A ++ (name, content ++ part) :: B)) :
    ∃ fs', fs.writeAll env name data = (true, fs') ∧
      fs.Reaches hidden P record (A ++ (name, content ++ data) :: B) fs' := by
  obtain ⟨fs', hwrite, hdisk, hvia⟩ := writeAll_spec (P := Shown hidden P) henv data (h.file hname)
    fun part hpart => ⟨_, _, hP part hpart, h.replace hfresh⟩
  refine ⟨fs', hwrite, ?_, hvia⟩
  rw [hdisk]
  exact h.replace hfresh

end FileSystem

end Files
