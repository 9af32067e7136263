import ElmWrap.Kit.Confinement

/-!
# Stored versions of kits

What happens to the kitfiles stored below `$WRAP_HOME/kits` in a sequence of
installations and updates. A run that is killed leaves the store as a run whose
calls fail from there on. The directories designated for packages and tools are
apart from the store.
-/

namespace ElmWrap.Kit

/-! ## Runs -/

/-- A command about kits, and what deeds outside of the directories designated for them do to the
kits. -/
inductive KitCommand
  | install (run : KitRun) (strays : KitsDir → KitsDir) (body : String)
  | update (run : UpdateRun) (strays : KitsDir → KitsDir) (body : String)

/-- The store after a command; `kit install` has no part in it. -/
def KitCommand.execute (sha256 : String → String) (kits : KitsDir) : KitCommand → KitsDir
  | .install run strays body => if AllInside (cmdKitInstall run body) then kits else strays kits
  | .update run strays body =>
    let result := cmdKitUpdate sha256 run body kits
    if AllInside result.deeds then result.kits else strays result.kits

/-- The store after a sequence of commands. -/
def runCommands (sha256 : String → String) (commands : List KitCommand) (kits : KitsDir) :
    KitsDir :=
  commands.foldl (KitCommand.execute sha256) kits

/-- No kit has been stored yet. -/
def emptyKits : KitsDir := fun _ => ⟨fun _ => none, .missing⟩

/-- No version leads out of the directories designated for it, and the version that is offered is
not called like the link to the current one. -/
def KitCommand.Fits (kits : KitsDir) : KitCommand → Prop
  | .install run _ body =>
    ∀ m, readKitfile body = some m → InstallFits run.places run.archives m
  | .update run _ body => ∀ m, readKitfile body = some m → m.kitVersion ≠ "current" ∧
      (validToolName m.kitName = true → validToolName m.kitVersion = true →
        UpdateFits run.places run.archives (kits m.kitName) m)

/-- Every command fits the store before it. -/
def CommandsFit (sha256 : String → String) (commands : List KitCommand) (kits : KitsDir) : Prop :=
  ∀ before command after, commands = before ++ command :: after →
    command.Fits (runCommands sha256 before kits)

/-- The kitfile that is offered is one for this version. -/
def Offers (body kit version : String) : Prop :=
  ∃ m, readKitfile body = some m ∧ m.kitName = kit ∧ m.kitVersion = version

/-! ## One update -/

theorem kitMode_prepared (sha256 : String → String) (meets : StoreMeets) (dir : KitDir)
    (source : Option KitSource) (m : KitManifest) (body : String) :
    kitMode sha256 meets dir (kitPrepareLocalSourceManifest source m) body =
      kitMode sha256 meets dir m body := by
  unfold kitMode
  rw [prepared_kitName, prepared_kitVersion]

/-- What is left of the directory of a kit where this version is stored, and perhaps promoted. -/
def LeftBy (meets : StoreMeets) (version body : String) (dir after : KitDir) : Prop :=
  after = (kitStoreKitfile meets version body dir).1 ∨
    (kitStoreKitfile meets version body dir).2 = true ∧
      after = (kitPromoteCurrent meets version (kitStoreKitfile meets version body dir).1).1

theorem installKit_kits (run : UpdateRun) (kit : ToolName) (m : KitManifest) (body : String)
    (kits : KitsDir) :
    (installKit run kit m body kits).kits = kits ∨
      ∃ dir, (installKit run kit m body kits).kits = Function.update kits kit.text dir ∧
        LeftBy run.store m.kitVersion body (kits kit.text) dir := by
  unfold installKit
  split
  · exact .inl rfl
  · split
    · rename_i dir result
      exact .inr ⟨dir, rfl, .inl (congrArg Prod.fst result).symm⟩
    · rename_i dir result
      have stored := congrArg Prod.fst result
      refine .inr ⟨_, rfl, .inr ⟨congrArg Prod.snd result, ?_⟩⟩
      rw [stored]

theorem updateKit_kits (run : UpdateRun) (kit : ToolName) (m old : KitManifest) (body : String)
    (kits : KitsDir) :
    (updateKit run kit m old body kits).kits = kits ∨
      ∃ dir, (updateKit run kit m old body kits).kits = Function.update kits kit.text dir ∧
        LeftBy run.store m.kitVersion body (kits kit.text) dir := by
  unfold updateKit
  split
  · exact .inl rfl
  · split
    · rename_i dir result
      exact .inr ⟨dir, rfl, .inl (congrArg Prod.fst result).symm⟩
    · rename_i dir result
      have stored := congrArg Prod.fst result
      refine .inr ⟨_, rfl, .inr ⟨congrArg Prod.snd result, ?_⟩⟩
      rw [stored]

/-- What an update does to the store: nothing, or it stores the kitfile of an offer that is not
refused, and perhaps promotes it. -/
theorem cmdKitUpdate_kits (sha256 : String → String) (run : UpdateRun) (body : String)
    (kits : KitsDir) :
    (cmdKitUpdate sha256 run body kits).kits = kits ∨
      ∃ m dir, readKitfile body = some m ∧
        (kitMode sha256 run.store (kits m.kitName) m body).isSome ∧
        (cmdKitUpdate sha256 run body kits).kits = Function.update kits m.kitName dir ∧
        LeftBy run.store m.kitVersion body (kits m.kitName) dir := by
  unfold cmdKitUpdate
  split
  · exact .inl rfl
  · rename_i m read
    split
    · exact .inl rfl
    unfold kitUpdateApply
    split
    · rename_i valid
      have version := prepared_kitVersion run.source m
      have installed := installKit_kits run ⟨m.kitName, valid.1⟩
        (kitPrepareLocalSourceManifest run.source m) body kits
      have updated := fun old => updateKit_kits run ⟨m.kitName, valid.1⟩
        (kitPrepareLocalSourceManifest run.source m) old body kits
      rw [version] at installed updated
      simp only
      split
      · exact .inl rfl
      · split
        · exact .inl rfl
        · rename_i mode chosen
          rw [kitMode_prepared] at chosen
          have accepted : (kitMode sha256 run.store (kits m.kitName) m body).isSome := by
            rw [chosen]
            rfl
          split
          · exact .inl rfl
          · split
            · exact .inl rfl
            · split
              · exact .inl rfl
              · split
                · exact .inl rfl
                · cases mode with
                  | install | reinstall =>
                    refine installed.imp_right fun changed => ?_
                    obtain ⟨dir, kits', left⟩ := changed
                    exact ⟨m, dir, read, accepted, kits', left⟩
                  | update old =>
                    refine (updated old).imp_right fun changed => ?_
                    obtain ⟨dir, kits', left⟩ := changed
                    exact ⟨m, dir, read, accepted, kits', left⟩
    · exact .inl rfl

/-- Storing a kitfile changes that of its version only. -/
theorem kitStoreKitfile_stored (meets : StoreMeets) {version : String} (body : String)
    (dir : KitDir) (named : version ≠ "current") (v : String) :
    (kitStoreKitfile meets version body dir).1.stored v = dir.stored v ∨
      v = version ∧ (kitStoreKitfile meets version body dir).1.stored v = some body := by
  unfold kitStoreKitfile
  rw [if_neg named]
  by_cases same : v = version
  · subst same
    split
    · exact .inl rfl
    · split
      · exact .inl (by simp [KitDir.stored])
      · exact .inr ⟨rfl, by simp [KitDir.stored]⟩
  · refine .inl ?_
    split
    · rfl
    · split <;> simp [KitDir.stored, same]

theorem kitStoreKitfile_current (meets : StoreMeets) {version : String} (body : String)
    (dir : KitDir) (named : version ≠ "current") :
    (kitStoreKitfile meets version body dir).1.current = dir.current := by
  unfold kitStoreKitfile
  rw [if_neg named]
  split
  · rfl
  · split <;> rfl

theorem kitPromoteCurrent_versions (meets : StoreMeets) (version : String) (dir : KitDir) :
    (kitPromoteCurrent meets version dir).1.versions = dir.versions := by
  unfold kitPromoteCurrent
  split
  · rfl
  · split <;> rfl
  · split
    · rfl
    · split <;> rfl

theorem kitPromoteCurrent_current (meets : StoreMeets) (version : String) (dir : KitDir) :
    (kitPromoteCurrent meets version dir).1.current = dir.current ∨
      (kitPromoteCurrent meets version dir).1.current = .missing ∨
      (kitPromoteCurrent meets version dir).1.current = .link version := by
  unfold kitPromoteCurrent
  split
  · exact .inl rfl
  · split
    · exact .inr (.inr rfl)
    · exact .inl rfl
  · split
    · exact .inl rfl
    · split
      · exact .inr (.inr rfl)
      · exact .inr (.inl rfl)

/-- A command that fits changes the store in the ways it means to. -/
theorem KitCommand.Fits.execute {sha256 : String → String} {kits : KitsDir}
    {command : KitCommand} (fits : command.Fits kits) :
    command.execute sha256 kits =
      match command with
      | .install _ _ _ => kits
      | .update run _ body => (cmdKitUpdate sha256 run body kits).kits := by
  cases command with
  | install run strays body =>
    refine if_pos ?_
    cases read : readKitfile body with
    | none => simp [cmdKitInstall, read]
    | some m => exact (fits m read).inside read
  | update run strays body =>
    refine if_pos ?_
    cases read : readKitfile body with
    | none => simp [cmdKitUpdate, read]
    | some m => exact UpdateFits.inside read (fits m read).2

/-- The step lemma: a stored kitfile changes only by an offer for its version that is not
refused. -/
theorem cmdKitUpdate_stored (sha256 : String → String) (run : UpdateRun) {body : String}
    (kits : KitsDir) (named : ∀ m, readKitfile body = some m → m.kitVersion ≠ "current")
    (kit version : String) :
    ((cmdKitUpdate sha256 run body kits).kits kit).stored version = (kits kit).stored version ∨
      ((cmdKitUpdate sha256 run body kits).kits kit).stored version = some body ∧
        ∃ m, readKitfile body = some m ∧ m.kitName = kit ∧ m.kitVersion = version ∧
          (kitMode sha256 run.store (kits kit) m body).isSome := by
  rcases cmdKitUpdate_kits sha256 run body kits with same | ⟨m, dir, read, mode, kits', made⟩
  · exact .inl (by rw [same])
  · rw [kits']
    by_cases other : kit = m.kitName
    · subst other
      rw [Function.update_self]
      have stored : dir.stored version =
          (kitStoreKitfile run.store m.kitVersion body (kits m.kitName)).1.stored version := by
        rcases made with rfl | ⟨_, rfl⟩
        · rfl
        · unfold KitDir.stored
          rw [kitPromoteCurrent_versions]
      rw [stored]
      rcases kitStoreKitfile_stored run.store body (kits m.kitName) (named m read) version with
        same | ⟨rfl, changed⟩
      · exact .inl same
      · exact .inr ⟨changed, m, read, rfl, rfl, mode⟩
    · exact .inl (by rw [Function.update_of_ne other])

/-! ## The invariant -/

/-- Every kitfile is stored for its own version, and `current` is no directory. -/
structure Consistent (kits : KitsDir) : Prop where
  own : ∀ kit version body, (kits kit).stored version = some body → Offers body kit version
  current : ∀ kit, (kits kit).current = .missing ∨
    ∃ version, version ≠ "current" ∧ (kits kit).current = .link version

theorem Consistent.empty : Consistent emptyKits :=
  ⟨nofun, fun _ => .inl rfl⟩

theorem Consistent.execute {sha256 : String → String} {kits : KitsDir} {command : KitCommand}
    (consistent : Consistent kits) (fits : command.Fits kits) :
    Consistent (command.execute sha256 kits) := by
  rw [fits.execute]
  cases command with
  | install run strays body => exact consistent
  | update run strays body =>
    have named := fun m read => (fits m read).1
    refine ⟨fun kit version stored found => ?_, fun kit => ?_⟩
    · rcases cmdKitUpdate_stored sha256 run kits named kit version with
        same | ⟨changed, m, read, name, number, _⟩
      · exact consistent.own kit version stored (same ▸ found)
      · obtain rfl : body = stored := Option.some_inj.mp (changed.symm.trans found)
        exact ⟨m, read, name, number⟩
    · dsimp only
      rcases cmdKitUpdate_kits sha256 run body kits with same | ⟨m, dir, read, _, kits', left⟩
      · rw [same]
        exact consistent.current kit
      · rw [kits']
        by_cases other : kit = m.kitName
        · subst other
          rw [Function.update_self]
          have before : (kitStoreKitfile run.store m.kitVersion body
              (kits m.kitName)).1.current = (kits m.kitName).current :=
            kitStoreKitfile_current run.store body _ (named m read)
          rcases left with rfl | ⟨_, rfl⟩
          · rw [before]
            exact consistent.current _
          · rcases kitPromoteCurrent_current run.store m.kitVersion
              (kitStoreKitfile run.store m.kitVersion body (kits m.kitName)).1 with
              same | missing | link
            · rw [same, before]
              exact consistent.current _
            · exact .inl missing
            · exact .inr ⟨m.kitVersion, named m read, link⟩
        · rw [Function.update_of_ne other]
          exact consistent.current kit

theorem CommandsFit.head {sha256 : String → String} {command : KitCommand}
    {commands : List KitCommand} {kits : KitsDir}
    (fits : CommandsFit sha256 (command :: commands) kits) : command.Fits kits :=
  fits [] command commands rfl

/-- Behind some commands. -/
theorem CommandsFit.later {sha256 : String → String} {commands later : List KitCommand}
    {kits : KitsDir} (fits : CommandsFit sha256 (commands ++ later) kits) :
    CommandsFit sha256 later (runCommands sha256 commands kits) := by
  intro before command after split
  have fit := fits (commands ++ before) command after (by rw [split, List.append_assoc])
  unfold runCommands at fit ⊢
  rwa [List.foldl_append] at fit

theorem CommandsFit.earlier {sha256 : String → String} {commands later : List KitCommand}
    {kits : KitsDir} (fits : CommandsFit sha256 (commands ++ later) kits) :
    CommandsFit sha256 commands kits := by
  intro before command after split
  exact fits before command (after ++ later) (by rw [split, List.append_assoc]; rfl)

theorem Consistent.run {sha256 : String → String} {commands : List KitCommand} :
    ∀ {kits : KitsDir}, Consistent kits → CommandsFit sha256 commands kits →
      Consistent (runCommands sha256 commands kits) := by
  induction commands with
  | nil => exact fun consistent _ => consistent
  | cons command commands ih =>
    intro kits consistent fits
    exact ih (consistent.execute fits.head) (@CommandsFit.later _ [command] _ _ fits)

/-- The current kitfile is the one stored for the version that is linked. -/
theorem Consistent.read {kits : KitsDir} (consistent : Consistent kits)
    {kit version stored : String} (visible : kit.startsWith "." = false)
    (current : (kits kit).current = .link version)
    (found : (kits kit).stored version = some stored) :
    ∃ old, kitReadCurrentManifest (kits kit) kit = some (old, stored) ∧
      old.kitVersion = version := by
  have named : version ≠ "current" := by
    rcases consistent.current kit with missing | ⟨v, named, link⟩
    · rw [missing] at current
      cases current
    · rw [link] at current
      cases current
      exact named
  have body : (kits kit).currentBody kit = some stored := by
    simp [KitDir.currentBody, visible, current, named, found]
  obtain ⟨old, read, _, number⟩ := consistent.own kit version stored found
  refine ⟨old, ?_, number⟩
  simp [kitReadCurrentManifest, body, read]

/-- Where an offer for the current version is not refused, it has the hash of the stored
kitfile. -/
theorem Consistent.hash {sha256 : String → String} {kits : KitsDir} (consistent : Consistent kits)
    {m : KitManifest} {meets : StoreMeets} {body stored : String} (reads : meets.reads = true)
    (visible : m.kitName.startsWith "." = false)
    (current : (kits m.kitName).current = .link m.kitVersion)
    (found : (kits m.kitName).stored m.kitVersion = some stored) :
    (kitMode sha256 meets (kits m.kitName) m body).isSome ↔ sha256 body = sha256 stored := by
  obtain ⟨old, read, number⟩ := consistent.read visible current found
  unfold kitMode
  simp only [reads, if_true, read, number]
  by_cases same : sha256 body = sha256 stored <;> simp [same]

/-- An offer that `kit_mode` refuses changes nothing. -/
theorem cmdKitUpdate_refused {sha256 : String → String} {run : UpdateRun} {body : String}
    {m : KitManifest} {kits : KitsDir} (read : readKitfile body = some m)
    (wet : run.dryRun = false) (refused : kitMode sha256 run.store (kits m.kitName) m body = none) :
    cmdKitUpdate sha256 run body kits = ⟨kits, [], 1⟩ := by
  unfold cmdKitUpdate
  rw [read]
  simp only [wet, Bool.false_eq_true, if_false]
  unfold kitUpdateApply
  split
  · simp only [kitMode_prepared, refused]
    split <;> rfl
  · rfl

/-- The run lemma: what a stored kitfile is after a sequence of commands. -/
theorem runCommands_stored {sha256 : String → String} {commands : List KitCommand} :
    ∀ {kits : KitsDir}, CommandsFit sha256 commands kits → ∀ kit version,
      (runCommands sha256 commands kits kit).stored version = (kits kit).stored version ∨
        ∃ before run strays body after m, commands = before ++ .update run strays body :: after ∧
          readKitfile body = some m ∧ m.kitName = kit ∧ m.kitVersion = version ∧
          (runCommands sha256 commands kits kit).stored version = some body ∧
          (kitMode sha256 run.store (runCommands sha256 before kits kit) m body).isSome := by
  induction commands with
  | nil => exact fun _ _ _ => .inl rfl
  | cons command commands ih =>
    intro kits fits kit version
    have others : CommandsFit sha256 commands (command.execute sha256 kits) :=
      @CommandsFit.later _ [command] _ _ fits
    rcases ih others kit version with
      same | ⟨before, run, strays, body, after, m, split, read, name, number, rest⟩
    · have step : ((command.execute sha256 kits) kit).stored version =
          (kits kit).stored version ∨ ∃ run strays body m, command = .update run strays body ∧
            readKitfile body = some m ∧ m.kitName = kit ∧ m.kitVersion = version ∧
            ((command.execute sha256 kits) kit).stored version = some body ∧
            (kitMode sha256 run.store (kits kit) m body).isSome := by
        rw [fits.head.execute]
        cases command with
        | install run strays body => exact .inl rfl
        | update run strays body =>
          have named := fun m read => (fits.head m read).1
          exact (cmdKitUpdate_stored sha256 run kits named kit version).imp_right
            fun ⟨changed, m, read, name, number, mode⟩ =>
              ⟨run, strays, body, m, rfl, read, name, number, changed, mode⟩
      rcases step with kept | ⟨run, strays, body, m, rfl, read, name, number, changed, mode⟩
      · exact .inl (same.trans kept)
      · exact .inr ⟨[], run, strays, body, commands, m, rfl, read, name, number,
          same.trans changed, mode⟩
    · exact .inr ⟨command :: before, run, strays, body, after, m, by rw [split]; rfl, read, name,
        number, rest⟩

/-! ## Stored versions -/

/-- After any sequence of installations and updates that fit, every kitfile is stored for its own
version; later it changes only by an offer for that version, which has the same hash where the
version is the current one; and such an offer with another hash is refused and changes nothing. -/
theorem kitStore_versions (sha256 : String → String) {history : List KitCommand}
    (fits : CommandsFit sha256 history emptyKits) :
    (∀ kit version body, (runCommands sha256 history emptyKits kit).stored version = some body →
        Offers body kit version) ∧
      (∀ later : List KitCommand, CommandsFit sha256 (history ++ later) emptyKits →
        ∀ kit version,
          (runCommands sha256 (history ++ later) emptyKits kit).stored version =
              (runCommands sha256 history emptyKits kit).stored version ∨
            ∃ before run strays body after, later = before ++ .update run strays body :: after ∧
              Offers body kit version ∧
              (runCommands sha256 (history ++ later) emptyKits kit).stored version = some body ∧
              (run.store.reads = true → kit.startsWith "." = false →
                (runCommands sha256 (history ++ before) emptyKits kit).current = .link version →
                ∀ stored, (runCommands sha256 (history ++ before) emptyKits kit).stored version =
                  some stored → sha256 body = sha256 stored)) ∧
      ∀ (run : UpdateRun) (body kit version stored : String), Offers body kit version →
        run.dryRun = false → run.store.reads = true → kit.startsWith "." = false →
        (runCommands sha256 history emptyKits kit).current = .link version →
        (runCommands sha256 history emptyKits kit).stored version = some stored →
        sha256 body ≠ sha256 stored →
          cmdKitUpdate sha256 run body (runCommands sha256 history emptyKits) =
            ⟨runCommands sha256 history emptyKits, [], 1⟩ := by
  have consistent : Consistent (runCommands sha256 history emptyKits) :=
    Consistent.empty.run fits
  have append (later : List KitCommand) : runCommands sha256 (history ++ later) emptyKits =
      runCommands sha256 later (runCommands sha256 history emptyKits) := by
    unfold runCommands
    rw [List.foldl_append]
  refine ⟨consistent.own, fun later fits' kit version => ?_,
    fun run body kit version stored offers wet reads visible current found other => ?_⟩
  · have fits := fits'.later
    rw [append]
    refine (runCommands_stored fits kit version).imp_right
      fun ⟨before, run, strays, body, after, m, split, read, name, number, changed, mode⟩ => ?_
    refine ⟨before, run, strays, body, after, split, ⟨m, read, name, number⟩, changed,
      fun reads visible current stored found => ?_⟩
    rw [append] at current found
    rw [split] at fits
    subst name number
    exact ((consistent.run fits.earlier).hash reads visible current found).mp mode
  · obtain ⟨m, read, rfl, rfl⟩ := offers
    refine cmdKitUpdate_refused read wet (Option.not_isSome_iff_eq_none.mp fun mode => ?_)
    exact other ((consistent.hash reads visible current found).mp mode)

/-- A kitfile for the version 1 of a kit. -/
def firstKitfile : String := "format 2\nelm 0.19.1\n\nkit: k\n    version: 1\n"

/-- A kitfile for the version 2. -/
def secondKitfile : String := "format 2\nelm 0.19.1\n\nkit: k\n    version: 2\n"

/-- Another kitfile for the version 1. -/
def otherKitfile : String := firstKitfile ++ "\npackage: a/b@1.0.0\n"

/-- An update where every call succeeds. -/
def smoothUpdateRun : UpdateRun := smoothUpdate homePlaces plainArchives true true

/-- The update with a kitfile, where every call succeeds. -/
def smoothCommand (body : String) : KitCommand := .update smoothUpdateRun id body

/-- The first kitfile has no packages. -/
theorem firstKitfile_fits : CommandsFit id [smoothCommand firstKitfile] emptyKits := by
  intro before command after split
  obtain ⟨rfl, rfl, -⟩ : before = [] ∧ smoothCommand firstKitfile = command ∧ [] = after := by
    cases before with
    | nil => simpa using split
    | cons first before => simp at split
  intro m read
  have lists : (readKitfile firstKitfile).map (fun m => (m.kitVersion, m.localDevs, m.packages)) =
      some ("1", [], []) := by decide
  rw [read] at lists
  obtain ⟨version, localDevs, packages⟩ : m.kitVersion = "1" ∧ m.localDevs = [] ∧
      m.packages = [] := by simpa using lists
  refine ⟨by rw [version]; decide, fun _ _ => ⟨?_, ?_, ?_, fun old body current => ?_⟩⟩
  · exact localDevs ▸ nofun
  · exact packages ▸ nofun
  · exact packages ▸ nofun
  · obtain ⟨body, found, -⟩ := Option.bind_eq_some_iff.mp current
    unfold KitDir.currentBody at found
    split at found <;> cases found

/-- Another kitfile for the current version is refused. -/
theorem kitStore_versions_refused :
    cmdKitUpdate id smoothUpdateRun otherKitfile
        (runCommands id [smoothCommand firstKitfile] emptyKits) =
      ⟨runCommands id [smoothCommand firstKitfile] emptyKits, [], 1⟩ := by
  obtain ⟨m, read⟩ : ∃ m, readKitfile otherKitfile = some m :=
    Option.isSome_iff_exists.mp (by decide)
  have names : (readKitfile otherKitfile).map (fun m => (m.kitName, m.kitVersion)) =
      some ("k", "1") := by decide
  rw [read] at names
  obtain ⟨name, version⟩ := Prod.mk.inj (Option.some_inj.mp names)
  exact (kitStore_versions id firstKitfile_fits).2.2 _ _ "k" "1" firstKitfile
    ⟨m, read, name, version⟩ rfl rfl (by decide +kernel) (by decide +kernel) (by decide +kernel)
    (by decide)

/-- After an update to the version 2 the kitfile stored for the version 1 is replaced by another
one. -/
theorem storedVersion_changes :
    (runCommands id [smoothCommand firstKitfile, smoothCommand secondKitfile] emptyKits
        "k").stored "1" = some firstKitfile ∧
      (runCommands id [smoothCommand firstKitfile, smoothCommand secondKitfile,
        smoothCommand otherKitfile] emptyKits "k").stored "1" = some otherKitfile ∧
      otherKitfile ≠ firstKitfile := by
  decide +kernel

end ElmWrap.Kit
