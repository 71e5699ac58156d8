import FilesetBatch.Config.Basic
import FilesetBatch.Proofs.Request.Codec

/-!
# Configurations are read back

A port has 16 bits, the number of connections has 32 and the size of a body 64
(`Config.InRange`). Whatever file and whatever variables a configuration is put together from,
its numbers are in range (`Config.inRange_of_load?`). Conversely a configuration is read back
from its own setting if its numbers are in range, and only then
(`Config.ofSetting?_toSetting_iff`). Since the lowest layer is such a setting, the standard
configuration holds where no other layer says anything (`Config.load?_of_unset`).
-/

namespace FilesetBatch

/-! ## Numbers -/

namespace Setting

variable {bound n : Nat} {setting : Setting}

theorem le_of_asUnsigned? (h : asUnsigned? bound setting = some n) : n ≤ bound := by
  simpa using (Option.filter_eq_some_iff.mp h).2

theorem asUnsigned?_integer (h : n ≤ bound) : asUnsigned? bound (.integer n) = some n := by
  simp [asUnsigned?, h]

end Setting

/-- The numbers of the server part are in range. -/
structure ServerConfig.InRange (server : ServerConfig) : Prop where
  tcpPort_le : server.tcpPort ≤ 65535
  maxBodyBytes_le : server.maxBodyBytes ≤ Word.maxUnsigned

/-- The number of the database part is in range, if it is given. -/
def DatabaseConfig.InRange (database : DatabaseConfig) : Prop :=
  ∀ count ∈ database.maxConnections, count ≤ 4294967295

namespace Config

/-- The numbers of a configuration are in range. -/
structure InRange (config : Config) : Prop where
  server_inRange : config.server.InRange
  database_inRange : config.database.InRange

variable {α : Type} {write : α → Setting} {read : Setting → Option α} {value : Option α}
  {part : Option Setting} {setting : Setting} {server : ServerConfig} {database : DatabaseConfig}
  {config : Config} {file : Option Json} {environment : List (String × String)}

/-! ## What is read is in range -/

theorem exists_of_optional? (h : optional? read part = some value) :
    ∀ a ∈ value, ∃ setting, read setting = some a := by
  intro a ha
  unfold optional? at h
  split at h
  · cases h
    cases ha
  · cases h
    cases ha
  · obtain ⟨b, hb, rfl⟩ := Option.map_eq_some_iff.mp h
    cases ha
    exact ⟨_, hb⟩

theorem inRange_of_serverOf? (h : serverOf? setting = some server) : server.InRange := by
  simp only [serverOf?, Option.bind_eq_bind, Option.bind_eq_some_iff] at h
  obtain ⟨parts, -, h⟩ := h
  split at h
  · simp only [required?, Option.bind_eq_some_iff] at h
    obtain ⟨host, -, tcpPort, ⟨_, -, hport⟩, maxBodyBytes, ⟨_, -, hbytes⟩, h⟩ := h
    cases h
    exact ⟨Setting.le_of_asUnsigned? hport, Setting.le_of_asUnsigned? hbytes⟩
  · cases h

theorem inRange_of_databaseOf? (h : databaseOf? setting = some database) : database.InRange := by
  simp only [databaseOf?, Option.bind_eq_bind, Option.bind_eq_some_iff] at h
  obtain ⟨parts, -, h⟩ := h
  split at h
  · simp only [Option.bind_eq_some_iff] at h
    obtain ⟨connectionString, -, maxConnections, hcount, h⟩ := h
    cases h
    intro count hmem
    obtain ⟨_, hread⟩ := exists_of_optional? hcount count hmem
    exact Setting.le_of_asUnsigned? hread
  · cases h

theorem inRange_of_ofSetting? (h : ofSetting? setting = some config) : config.InRange := by
  simp only [ofSetting?, Option.bind_eq_bind, Option.bind_eq_some_iff] at h
  obtain ⟨parts, -, h⟩ := h
  split at h
  · simp only [Option.bind_eq_some_iff] at h
    obtain ⟨_, -, _, -, h⟩ := h
    split at h
    · simp only [required?, Option.bind_eq_some_iff] at h
      obtain ⟨server, ⟨_, -, hserver⟩, database, ⟨_, -, hdatabase⟩, store, -, operations, -, h⟩ := h
      cases h
      exact ⟨inRange_of_serverOf? hserver, inRange_of_databaseOf? hdatabase⟩
    · cases h
  · cases h

/-- From whatever file and environment a configuration is put together, its numbers are in
range. -/
theorem inRange_of_load? (h : load? file environment = some config) : config.InRange := by
  have hread : ∃ setting, ofSetting? setting = some config := by
    cases file with
    | none =>
      obtain ⟨layered, -, h⟩ := Option.bind_eq_some_iff.mp h
      exact ⟨layered, h⟩
    | some file =>
      obtain ⟨root, -, h⟩ := Option.bind_eq_some_iff.mp h
      obtain ⟨layered, -, h⟩ := Option.bind_eq_some_iff.mp h
      exact ⟨layered, h⟩
  obtain ⟨setting, h⟩ := hread
  exact inRange_of_ofSetting? h

/-! ## What is in range is read back -/

theorem optional?_optional (h : ∀ a ∈ value, write a ≠ .null ∧ read (write a) = some a) :
    optional? read (some (optional write value)) = some value := by
  cases value with
  | none => rfl
  | some a =>
    obtain ⟨hwrite, hread⟩ := h a rfl
    rw [optional, optional?.eq_3 _ _ hwrite, hread]
    rfl

theorem serverOf?_serverSetting (h : server.InRange) :
    serverOf? (serverSetting server) = some server := by
  simp [serverOf?, serverSetting, Setting.parts?, List.lookup_cons, required?, Setting.asText?,
    Setting.asUnsigned?_integer h.tcpPort_le, Setting.asUnsigned?_integer h.maxBodyBytes_le]

theorem databaseOf?_databaseSetting (h : database.InRange) :
    databaseOf? (databaseSetting database) = some database := by
  have hstring : optional? Setting.asText?
      (some (optional .text database.connectionString)) = some database.connectionString :=
    optional?_optional fun text _ => ⟨nofun, rfl⟩
  have hcount : optional? (Setting.asUnsigned? 4294967295)
      (some (optional (fun count : Nat => .integer count) database.maxConnections)) =
        some database.maxConnections :=
    optional?_optional fun count hmem => ⟨nofun, Setting.asUnsigned?_integer (h count hmem)⟩
  simp [databaseOf?, databaseSetting, Setting.parts?, List.lookup_cons, hstring, hcount]

theorem storeOf?_storeSetting (store : StoreConfig) :
    storeOf? (storeSetting store) = some store := by
  have hbackend : Setting.asChoice? ([Backend.postgres, .memory].map fun backend =>
      (backend.name, backend)) (.text store.backend.name) = some store.backend := by
    cases store.backend <;> rfl
  simp only [List.map_cons, List.map_nil] at hbackend
  simp [storeOf?, storeSetting, Setting.parts?, List.lookup_cons, required?, Setting.asBool?,
    hbackend]

theorem operationsOf?_operationsSetting (operations : List Operation) :
    operationsOf? (operationsSetting operations) = some operations :=
  Request.mapM_map_eq_some fun operation _ => by cases operation <;> rfl

/-- A configuration is read back from its own setting if its numbers are in range, and only
then. -/
theorem ofSetting?_toSetting_iff : ofSetting? config.toSetting = some config ↔ config.InRange := by
  refine ⟨inRange_of_ofSetting?, fun h => ?_⟩
  simp [ofSetting?, toSetting, Setting.parts?, List.lookup_cons, required?,
    serverOf?_serverSetting h.server_inRange, databaseOf?_databaseSetting h.database_inRange,
    storeOf?_storeSetting, operationsOf?_operationsSetting]

/-! ## Without other layers -/

theorem inRange_standard : standard.InRange where
  server_inRange := ⟨by decide, by decide⟩
  database_inRange := by
    intro count hmem
    cases hmem
    decide

theorem layOver_of_unset {root : Setting}
    (h : ∀ entry ∈ environment, Environment.path? entry.1 = none) :
    Environment.layOver environment root = some root := by
  induction environment with
  | nil => rfl
  | cons entry environment ih =>
    obtain ⟨hentry, hrest⟩ := List.forall_mem_cons.mp h
    rw [Environment.layOver, List.foldlM_cons, hentry]
    exact ih hrest

/-- Without a file, and with no variable that sets anything, the standard configuration
holds. -/
theorem load?_of_unset (h : ∀ entry ∈ environment, Environment.path? entry.1 = none) :
    load? none environment = some standard := by
  simp [load?, layOver_of_unset h, ofSetting?_toSetting_iff.mpr inRange_standard]

example : load? none [] = some standard := by decide +kernel

end Config

end FilesetBatch
