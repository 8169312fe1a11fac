import Mathlib

/-!
# Migrations

A release carries the migrations up to its own schema version, and all releases of a deploy share one
chain of them. A plan is what takes a stored version to the release's own. Commands stay abstract: a
schema is the list of those that made it, with what a fresh install creates counted as all of its
release's commands.
-/

namespace PgBoss

/-- A migration, with its index builds enqueued behind its own commands. -/
structure Migration (σ : Type*) where
  version : ℕ
  previous : ℕ
  install : List σ

/-- The migrations that were ever released, oldest first. -/
structure MigrationChain (σ : Type*) where
  migrations : List (Migration σ)
  versions : ∀ m ∈ migrations, m.version = m.previous + 1
  ordered : migrations.Pairwise fun a b => a.version < b.version

/-- A release: its migrations begin the chain, and the last of them is its `schemaVersion`. -/
structure Release {σ : Type*} (chain : MigrationChain σ) where
  migrations : List (Migration σ)
  schemaVersion : ℕ
  begins : migrations <+: chain.migrations
  latest : migrations.getLast?.map Migration.version = some schemaVersion

variable {σ : Type*}

/-- What `migrateCommands` runs between its guard and `setVersion`, and the version of both. It refuses a version below the
oldest that a migration starts from, and one that no migration is ahead of. -/
def migrateCommands (migrations : List (Migration σ)) (version : ℕ) : Option (List σ × ℕ) :=
  let result := (migrations.filter fun m => decide (version ≤ m.previous)).insertionSort fun a b => a.version ≤ b.version
  let install := result.flatMap Migration.install
  if version ≠ 0 ∧ (migrations.map Migration.previous).min?.any (fun floor => decide (floor ≤ version)) = false then none
  else if install.isEmpty then none
  else some (install, (result.getLast?.map Migration.version).getD version)

/-- The commands of the migrations up to a version, in order. -/
def MigrationChain.upTo (chain : MigrationChain σ) (version : ℕ) : List σ :=
  (chain.migrations.filter fun m => decide (m.version ≤ version)).flatMap Migration.install

variable {chain : MigrationChain σ}

/-- In order, those up to a bound come first. -/
theorem filter_append_filter {l : List (Migration σ)} (h : l.Pairwise fun a b => a.version < b.version) (v : ℕ) :
    (l.filter fun m => decide (m.version ≤ v)) ++ (l.filter fun m => decide (v < m.version)) = l := by
  induction l with
  | nil => rfl
  | cons a l ih =>
    obtain ⟨hfirst, hrest⟩ := List.pairwise_cons.mp h
    by_cases ha : a.version ≤ v
    · rw [List.filter_cons_of_pos (by simpa using ha), List.filter_cons_of_neg (by simpa using ha), List.cons_append,
        ih hrest]
    · have hnone : (l.filter fun m => decide (m.version ≤ v)) = [] := by
        refine List.filter_eq_nil_iff.mpr fun m hm => ?_
        have hbehind := hfirst m hm
        simp only [decide_eq_true_eq]
        omega
      have hall : (l.filter fun m => decide (v < m.version)) = l := by
        refine List.filter_eq_self.mpr fun m hm => ?_
        have hbehind := hfirst m hm
        simp only [decide_eq_true_eq]
        omega
      rw [List.filter_cons_of_neg (by simpa using ha), List.filter_cons_of_pos (by simpa using ha), hnone, hall]
      rfl

namespace Release

variable (release : Release chain)

theorem ordered : release.migrations.Pairwise fun a b => a.version < b.version :=
  chain.ordered.sublist release.begins.sublist

/-- The release's migrations lead up to its own version, and the later ones beyond. -/
theorem version_le {m : Migration σ} (hm : m ∈ release.migrations) : m.version ≤ release.schemaVersion := by
  obtain ⟨last, hlast, hversion⟩ := Option.map_eq_some_iff.mp release.latest
  obtain ⟨before, hsplit⟩ := List.getLast?_eq_some_iff.mp hlast
  have hordered := release.ordered
  rw [hsplit] at hm hordered
  rcases List.mem_append.mp hm with hbefore | hmlast
  · exact hversion ▸ ((List.pairwise_append.mp hordered).2.2 m hbefore last (List.mem_singleton.mpr rfl)).le
  · exact hversion ▸ (List.mem_singleton.mp hmlast ▸ Nat.le_refl _)

theorem exists_latest : ∃ m ∈ release.migrations, m.version = release.schemaVersion := by
  obtain ⟨last, hlast, hversion⟩ := Option.map_eq_some_iff.mp release.latest
  exact ⟨last, List.mem_of_getLast? hlast, hversion⟩

/-- Up to the release's version, its own migrations are all there are. -/
theorem upTo_of_le {v : ℕ} (h : v ≤ release.schemaVersion) :
    chain.upTo v = (release.migrations.filter fun m => decide (m.version ≤ v)).flatMap Migration.install := by
  obtain ⟨later, hlater⟩ := release.begins
  obtain ⟨last, hlast, hversion⟩ := release.exists_latest
  have hnone : (later.filter fun m => decide (m.version ≤ v)) = [] := by
    refine List.filter_eq_nil_iff.mpr fun m hm => ?_
    have hordered := chain.ordered
    rw [← hlater] at hordered
    have hbehind := (List.pairwise_append.mp hordered).2.2 last hlast m hm
    simp only [decide_eq_true_eq]
    omega
  rw [MigrationChain.upTo, ← hlater, List.filter_append, hnone, List.append_nil]

theorem upTo_schemaVersion : chain.upTo release.schemaVersion = release.migrations.flatMap Migration.install := by
  rw [release.upTo_of_le (Nat.le_refl _), List.filter_eq_self.mpr fun m hm => decide_eq_true (release.version_le hm)]

/-- A plan takes the schema of the version it is for to that of the release. -/
theorem upTo_append_of_migrateCommands {v : ℕ} {plan : List σ × ℕ} (hv : v < release.schemaVersion)
    (hplan : migrateCommands release.migrations v = some plan) :
    plan.2 = release.schemaVersion ∧ chain.upTo v ++ plan.1 = chain.upTo release.schemaVersion := by
  have hpicked : (release.migrations.filter fun m => decide (v ≤ m.previous)) =
      release.migrations.filter fun m => decide (v < m.version) := by
    refine List.filter_congr fun m hm => ?_
    rw [chain.versions m (release.begins.subset hm), decide_eq_decide]
    omega
  have hsorted : (release.migrations.filter fun m => decide (v < m.version)).insertionSort
      (fun a b => a.version ≤ b.version) = release.migrations.filter fun m => decide (v < m.version) :=
    ((release.ordered.sublist List.filter_sublist).imp fun hab => hab.le).insertionSort_eq
  obtain ⟨last, hlast, hversion⟩ := Option.map_eq_some_iff.mp release.latest
  have hlastPicked : (release.migrations.filter fun m => decide (v < m.version)).getLast? = some last := by
    obtain ⟨before, hsplit⟩ := List.getLast?_eq_some_iff.mp hlast
    rw [hsplit, List.filter_append, List.filter_cons_of_pos (by simpa [hversion] using hv), List.filter_nil,
      List.getLast?_append_of_ne_nil _ (List.cons_ne_nil _ _), List.getLast?_singleton]
  unfold migrateCommands at hplan
  simp only [hpicked, hsorted, hlastPicked, Option.map_some, Option.getD_some, hversion] at hplan
  split_ifs at hplan
  obtain rfl := Option.some.inj hplan
  refine ⟨rfl, ?_⟩
  rw [release.upTo_of_le hv.le, release.upTo_schemaVersion, ← List.flatMap_append, filter_append_filter release.ordered]

end Release

end PgBoss
