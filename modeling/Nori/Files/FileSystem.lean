import Mathlib.Data.List.Basic

/-!
# A file system, step by step

A directory of files, and the system calls that change it. Each call is one step, which succeeds or
leaves the directory as it is. The steps that were taken are kept, so that one can ask what a
process that dies between two of them leaves behind.
-/

namespace Files

open List Function

/-- The contents of files by name, and a record. -/
structure Disk (ν μ : Type) where
  files : ν → Option (List UInt8)
  record : Option μ

inductive Step (ν μ : Type)
  | create (name : ν)
  | write (name : ν) (data : List UInt8)
  | truncate (name : ν) (size : ℕ)
  | rename (old new : ν)
  | unlink (name : ν)
  | sync (name : ν)
  | save (record : μ)
deriving DecidableEq

/-- Which calls fail for reasons of their own, by their number, and how much one write can write:
at least one byte. -/
structure Env where
  fails : ℕ → Bool
  cut : ℕ → ℕ

/-- All calls succeed that can. -/
def Env.Reliable (env : Env) : Prop := ∀ k, env.fails k = false

section Disk

variable {ν μ : Type} [DecidableEq ν]

namespace Disk

def put (d : Disk ν μ) (name : ν) (content : Option (List UInt8)) : Disk ν μ :=
  { d with files := update d.files name content }

@[simp] theorem put_self (d : Disk ν μ) (name : ν) (content : Option (List UInt8)) :
    (d.put name content).files name = content :=
  update_self (β := fun _ => Option (List UInt8)) name content d.files

theorem put_of_ne (d : Disk ν μ) {name name' : ν} (content : Option (List UInt8))
    (h : name' ≠ name) : (d.put name content).files name' = d.files name' :=
  update_of_ne (β := fun _ => Option (List UInt8)) h content d.files

theorem put_put (d : Disk ν μ) (name : ν) (content content' : Option (List UInt8)) :
    (d.put name content).put name content' = d.put name content' := by
  unfold put
  rw [update_idem]

theorem put_eq_self {d : Disk ν μ} {name : ν} {content : Option (List UInt8)}
    (h : d.files name = content) : d.put name content = d := by
  unfold put
  rw [update_eq_self_iff.mpr h.symm]

/-- A step, where it can be taken: a file that is created replaces one of its name, as does one that
is renamed. -/
def apply (d : Disk ν μ) : Step ν μ → Option (Disk ν μ)
  | .create name => some (d.put name (some []))
  | .write name data => (d.files name).map fun c => d.put name (some (c ++ data))
  | .truncate name size => (d.files name).map fun c => d.put name (some (c.take size))
  | .rename old new => (d.files old).map fun c => (d.put old none).put new (some c)
  | .unlink name => (d.files name).map fun _ => d.put name none
  | .sync name => (d.files name).map fun _ => d
  | .save record => some { d with record := some record }

end Disk

/-- A disk and the steps that were taken, and how many were tried. -/
structure FileSystem (ν μ : Type) where
  disk : Disk ν μ
  done : List (Step ν μ)
  tried : ℕ

namespace FileSystem

variable {env : Env} {fs fs' fs'' : FileSystem ν μ} {P : Disk ν μ → Prop}

/-- Tries a step. -/
def exec (env : Env) (step : Step ν μ) (fs : FileSystem ν μ) : Bool × FileSystem ν μ :=
  if env.fails fs.tried then (false, { fs with tried := fs.tried + 1 })
  else
    match fs.disk.apply step with
    | some disk => (true, ⟨disk, fs.done ++ [step], fs.tried + 1⟩)
    | none => (false, { fs with tried := fs.tried + 1 })

/-- Writes until all is written, or a write fails. -/
def writeLoop (env : Env) (name : ν) : ℕ → List UInt8 → FileSystem ν μ → Bool × FileSystem ν μ
  | 0, _, fs => (true, fs)
  | fuel + 1, data, fs =>
    if data = [] then (true, fs)
    else
      let n := env.cut fs.tried + 1
      match fs.exec env (.write name (data.take n)) with
      | (true, fs) => writeLoop env name fuel (data.drop n) fs
      | (false, fs) => (false, fs)

def writeAll (env : Env) (name : ν) (data : List UInt8) (fs : FileSystem ν μ) :
    Bool × FileSystem ν μ :=
  writeLoop env name data.length data fs

/-! ## The disks in between -/

/-- All disks from one on have the property, as steps are taken, and the last one is reached. -/
def Through (P : Disk ν μ → Prop) : Disk ν μ → List (Step ν μ) → Disk ν μ → Prop
  | d, [], d' => P d ∧ d = d'
  | d, step :: steps, d' => P d ∧ ∃ d₁, d.apply step = some d₁ ∧ Through P d₁ steps d'

/-- Steps were taken, and all disks in between have the property. -/
def Via (P : Disk ν μ → Prop) (fs fs' : FileSystem ν μ) : Prop :=
  ∃ steps, fs'.done = fs.done ++ steps ∧ Through P fs.disk steps fs'.disk

theorem Through.trans {d d₁ d₂ : Disk ν μ} {steps steps' : List (Step ν μ)}
    (h : Through P d steps d₁) (h' : Through P d₁ steps' d₂) :
    Through P d (steps ++ steps') d₂ := by
  induction steps generalizing d with
  | nil =>
    obtain ⟨-, rfl⟩ := h
    exact h'
  | cons step steps ih =>
    obtain ⟨hd, d', happly, hrest⟩ := h
    exact ⟨hd, d', happly, ih hrest⟩

theorem Via.refl (h : P fs.disk) : Via P fs fs := ⟨[], by rw [append_nil], h, rfl⟩

theorem Via.trans (h : Via P fs fs') (h' : Via P fs' fs'') : Via P fs fs'' := by
  obtain ⟨steps, hdone, hsteps⟩ := h
  obtain ⟨steps', hdone', hsteps'⟩ := h'
  exact ⟨steps ++ steps', by rw [hdone', hdone, append_assoc], hsteps.trans hsteps'⟩

/-- A disk on the way from one state to another: that of a process which dies after some steps. -/
def Between (fs fs' : FileSystem ν μ) (d : Disk ν μ) : Prop :=
  ∃ steps n, fs'.done = fs.done ++ steps ∧ (steps.take n).foldlM Disk.apply fs.disk = some d

theorem Through.take {d d' d₁ : Disk ν μ} {steps : List (Step ν μ)} (h : Through P d steps d')
    (n : ℕ) (hd : (steps.take n).foldlM Disk.apply d = some d₁) : P d₁ := by
  induction steps generalizing d n with
  | nil =>
    rw [take_nil] at hd
    cases hd
    exact h.1
  | cons step steps ih =>
    obtain ⟨hP, d₂, happly, hrest⟩ := h
    cases n with
    | zero =>
      cases hd
      exact hP
    | succ n =>
      rw [take_succ_cons, foldlM_cons, happly] at hd
      exact ih hrest n hd

theorem Via.between {d : Disk ν μ} (h : Via P fs fs') (hd : Between fs fs' d) : P d := by
  obtain ⟨steps, hdone, hthrough⟩ := h
  obtain ⟨steps', n, hdone', happly⟩ := hd
  obtain rfl : steps = steps' := append_cancel_left (hdone.symm.trans hdone')
  exact hthrough.take n happly

theorem exec_of_apply {step : Step ν μ} {d : Disk ν μ} (henv : env.Reliable)
    (h : fs.disk.apply step = some d) :
    fs.exec env step = (true, ⟨d, fs.done ++ [step], fs.tried + 1⟩) := by
  unfold exec
  rw [henv, h]
  rfl

theorem Via.exec {step : Step ν μ} {d : Disk ν μ} (h : fs.disk.apply step = some d)
    (hbefore : P fs.disk) (hafter : P d) : Via P fs ⟨d, fs.done ++ [step], fs.tried + 1⟩ :=
  ⟨[step], rfl, hbefore, d, h, hafter, rfl⟩

theorem writeLoop_spec {name : ν} (henv : env.Reliable) (fuel : ℕ) (content data : List UInt8)
    (hfile : fs.disk.files name = some content) (hfuel : data.length ≤ fuel)
    (hP : ∀ part, part <+: data → P (fs.disk.put name (some (content ++ part)))) :
    ∃ fs', writeLoop env name fuel data fs = (true, fs') ∧
      fs'.disk = fs.disk.put name (some (content ++ data)) ∧ Via P fs fs' := by
  have hbefore : P fs.disk := by
    have hnil := hP [] nil_prefix
    rwa [append_nil, Disk.put_eq_self hfile] at hnil
  have hnone : fs.disk = fs.disk.put name (some (content ++ [])) := by
    rw [append_nil, Disk.put_eq_self hfile]
  induction fuel generalizing fs content data with
  | zero =>
    obtain rfl : data = [] := length_eq_zero_iff.mp (by omega)
    exact ⟨fs, rfl, hnone, .refl hbefore⟩
  | succ fuel ih =>
    unfold writeLoop
    by_cases hempty : data = []
    · subst hempty
      rw [if_pos rfl]
      exact ⟨fs, rfl, hnone, .refl hbefore⟩
    rw [if_neg hempty]
    dsimp only
    set n := env.cut fs.tried + 1
    set d₁ := fs.disk.put name (some (content ++ data.take n)) with hd₁
    have happly : fs.disk.apply (.write name (data.take n)) = some d₁ := by
      rw [Disk.apply, hfile]
      rfl
    have hlen : 0 < data.length := length_pos_of_ne_nil hempty
    have hpart := take_prefix n data
    have hafter : P d₁ := hP (data.take n) hpart
    set fs₁ : FileSystem ν μ := ⟨d₁, fs.done ++ [.write name (data.take n)], fs.tried + 1⟩ with hfs₁
    have hfile₁ : fs₁.disk.files name = some (content ++ data.take n) := Disk.put_self _ _ _
    have hput : ∀ c, fs₁.disk.put name c = fs.disk.put name c := fun c => Disk.put_put _ _ _ _
    rw [exec_of_apply henv happly]
    obtain ⟨fs', hloop, hdisk, hvia⟩ := ih (content ++ data.take n) (data.drop n) hfile₁
      (by rw [length_drop]; omega) (fun part hpart => by
        obtain ⟨rest, hrest⟩ := hpart
        rw [hput, append_assoc]
        exact hP _ ⟨rest, by rw [append_assoc, hrest, take_append_drop]⟩) hafter
      (by rw [append_nil, Disk.put_eq_self hfile₁])
    refine ⟨fs', hloop, ?_, (Via.exec happly hbefore hafter).trans hvia⟩
    rw [hdisk, hput, append_assoc, take_append_drop]

/-- The disks in between have a beginning of the data. -/
theorem writeAll_spec {name : ν} {content : List UInt8} (henv : env.Reliable) (data : List UInt8)
    (hfile : fs.disk.files name = some content)
    (hP : ∀ part, part <+: data → P (fs.disk.put name (some (content ++ part)))) :
    ∃ fs', fs.writeAll env name data = (true, fs') ∧
      fs'.disk = fs.disk.put name (some (content ++ data)) ∧ Via P fs fs' :=
  writeLoop_spec henv _ content data hfile (Nat.le_refl _) hP

theorem done_writeAll (env : Env) (name : ν) (data : List UInt8) (fs : FileSystem ν μ) :
    ∃ steps, (fs.writeAll env name data).2.done = fs.done ++ steps ∧
      ∀ step ∈ steps, ∃ part, step = .write name part := by
  unfold writeAll
  generalize data.length = fuel
  have hnil : ∀ fs : FileSystem ν μ, ∃ steps, fs.done = fs.done ++ steps ∧
      ∀ step ∈ steps, ∃ part, step = .write name part := fun fs =>
    ⟨[], by rw [append_nil], nofun⟩
  induction fuel generalizing data fs with
  | zero => exact hnil fs
  | succ fuel ih =>
    unfold writeLoop
    split_ifs
    · exact hnil fs
    dsimp only
    unfold exec
    split_ifs
    · exact hnil _
    split
    next hexec =>
      split at hexec <;> cases hexec
      obtain ⟨steps, hdone, hsteps⟩ := ih (data.drop (env.cut fs.tried + 1)) _
      exact ⟨_ :: steps, by rw [hdone, append_assoc, singleton_append],
        forall_mem_cons.mpr ⟨⟨_, rfl⟩, hsteps⟩⟩
    next hexec =>
      split at hexec <;> cases hexec
      exact hnil _

end FileSystem

end Disk

end Files
