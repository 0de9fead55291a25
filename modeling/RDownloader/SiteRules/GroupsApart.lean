import Mathlib.Data.List.Forall2
import Mathlib.Data.List.ReduceOption
import RDownloader.SiteRules.Beside

/-!
# The entries of a group do not see each other

What an entry yields is what it would yield alone, with the variables as the rule's own steps left
them; what was delivered before is taken out of it afterwards.
-/

namespace RDownloader

namespace SiteRules

open Refusing

variable {Url : Type}

/-! ## One entry alone -/

/-- The variables the steps of a group may write. -/
def Groups.written (groups : Groups) : List String :=
  groups.steps.map Step.writtenBy ++ [linksVariable, pageUrlVariable, groups.entryVariable]

/-- The variables that make no difference to an entry: the group reads none of them, or each entry
starts with its own. -/
def Groups.Unread (groups : Groups) (name : String) : Prop :=
  name ∉ groups.reads ∧ name ≠ linksVariable ∧ name ≠ groups.entryVariable

namespace Run

variable (setting : Setting Url)

/-- `groups` once the entries were read. -/
def groupsOver (groups : Groups) (fallback : Option String) (entries : List String) :
    Crawling Url (List CrawlGroup) := do
  let run ← get
  let saved := run.vars.saved groups
  let (deepest, found) ←
    groupEntries setting groups fallback saved run.depth run.way entries run.depth [] 0 []
  modify fun run => { run with vars := run.vars.restore saved }
  goTo deepest run.way
  if found = [] then throw .noLinks else return found

end Run

/-- A run over one entry answers with its package, or has no link. -/
def aloneAnswer : Option CrawlGroup → Except RunError (List CrawlGroup)
  | some package => .ok [package]
  | none => .error .noLinks

/-- What the run over `entry` alone yields from a state. -/
def AloneYields (setting : Setting Url) (groups : Groups) (fallback : Option String)
    (state : Run Url) (entry : String) (package : Option CrawlGroup) : Prop :=
  ∃ last, (Run.groupsOver setting groups fallback [entry]).exec state = (aloneAnswer package, last)

/-- The packages that are left when each link is delivered once, with the first that has it. -/
def deliver (web : Web Url) (mirrors : Option GroupMirrors) :
    List String → List (Option CrawlGroup) → List CrawlGroup
  | _, [] => []
  | seen, none :: packages => deliver web mirrors seen packages
  | seen, some package :: packages =>
    let links := (package.links.map GroupLink.url).filter (· ∉ seen)
    if links = [] then deliver web mirrors seen packages
    else { package with links := numberMirrors web links mirrors } ::
      deliver web mirrors (links ++ seen) packages

/-! ## Where an entry starts -/

namespace Variables

def entered (vars : Variables) (groups : Groups) (entry : String) : Variables :=
  (vars.unset linksVariable).set groups.entryVariable (.one entry)

theorem restore_map (vars base : Variables) (names : List String) (name : String) :
    vars.restore (names.map fun name => (name, base name)) name =
      if name ∈ names then base name else vars name := by
  induction names generalizing vars with
  | nil => rfl
  | cons first names ih =>
    refine (ih _).trans ?_
    by_cases hname : name = first
    · subst hname
      cases hbase : base name with
      | none => simp [unset, hbase]
      | some value => simp [set, hbase]
    · cases hbase : base first with
      | none => simp [unset, hbase, hname]
      | some value => simp [set, hbase, hname]

/-- What a group may have written is put back. -/
theorem restore_saved {vars base : Variables} {groups : Groups}
    (h : ∀ name, name ∉ groups.written → vars name = base name) :
    vars.restore (base.saved groups) = base := by
  funext name
  change vars.restore (groups.written.map fun name => (name, base name)) name = _
  rw [restore_map]
  split
  next => rfl
  next hname => exact h name hname

end Variables

variable {setting : Setting Url} {groups : Groups} {fallback : Option String}
  {base run state next : Run Url} {entry : String} {entries : List String}

/-- The run as an entry finds it. -/
def Run.entered (run : Run Url) (vars : Variables) (groups : Groups) (entry : String) (depth : Nat)
    (way : List Url) : Run Url :=
  { run with vars := vars.entered groups entry, depth, way }

theorem mem_written_of_step (groups : Groups) :
    ∀ step ∈ groups.steps, step.writtenBy ∈ groups.written :=
  fun _ hstep => List.mem_append_left _ (List.mem_map_of_mem hstep)

theorem links_mem_written (groups : Groups) : linksVariable ∈ groups.written :=
  List.mem_append_right _ List.mem_cons_self

theorem pageUrl_mem_written (groups : Groups) : pageUrlVariable ∈ groups.written :=
  List.mem_append_right _ (List.mem_cons_of_mem _ List.mem_cons_self)

theorem entryVariable_mem_written (groups : Groups) : groups.entryVariable ∈ groups.written :=
  List.mem_append_right _ (List.mem_cons_of_mem _ (List.mem_cons_of_mem _ List.mem_cons_self))

/-- An entry of the whole run, beside the entry alone. -/
theorem entered_beside (hlater : Later base groups.written run)
    (hlighter : Lighter groups.Unread base state) (entry : String) :
    Beside base groups.written groups.Unread
      (run.entered base.vars groups entry base.depth base.way)
      (state.entered state.vars groups entry state.depth state.way) := by
  refine ⟨⟨fun name hname => ?_, hlater.seen, hlater.pages, hlater.waited, hlater.asked⟩,
    ⟨fun name hname => ?_, ?_, ?_, hlighter.depth, ?_, ?_, hlighter.way⟩⟩
  · have hne : name ≠ linksVariable ∧ name ≠ groups.entryVariable :=
      ⟨fun heq => hname (heq ▸ links_mem_written groups),
        fun heq => hname (heq ▸ entryVariable_mem_written groups)⟩
    exact (if_neg hne.2).trans (if_neg hne.1)
  · dsimp only [Run.entered, Variables.entered, Variables.set, Variables.unset]
    split
    next => rfl
    next hentry =>
      split
      next => rfl
      next hlinks =>
        refine hlighter.vars name fun hunread => hname ?_
        exact hunread
  · exact fun key hkey => hlater.seen (hlighter.seen hkey)
  · exact Nat.le_trans hlighter.pages hlater.pages
  · exact hlighter.waited.trans hlater.waited.symm
  · exact Nat.le_trans hlighter.asked hlater.asked

/-- The steps of a group go in the whole run as they go alone. -/
theorem groupSteps_repeats (h : Fair setting) (groups : Groups) (first : Nat) :
    Repeats (Beside base groups.written groups.Unread) (Run.steps setting first groups.steps) := by
  have hread {name : String} (hname : name ∈ groups.reads) : ¬groups.Unread name :=
    fun hunread => hunread.1 hname
  refine Run.steps_repeats h (pageUrl_mem_written groups) (hread List.mem_cons_self)
    (mem_written_of_step groups) (fun step hstep name hname => hread ?_) first
  refine List.mem_append_left _ (List.mem_cons_of_mem _ ?_)
  exact List.mem_flatMap.mpr ⟨step, hstep, hname⟩

/-! ## What an entry yields -/

/-- The package of an entry, from the state its steps left. -/
def yielded (setting : Setting Url) (groups : Groups) (fallback : Option String) (next : Run Url) :
    Option CrawlGroup :=
  match next.vars linksVariable with
  | none => none
  | some value =>
    if Run.absoluteLinks setting next value = [] then none
    else some {
      name := (Run.packageFrom setting next.vars groups.package).or fallback
      links := numberMirrors setting.web (Run.absoluteLinks setting next value) groups.mirrors }

theorem length_hostPositions (linkHost : String → String) (before links : List String) :
    (hostPositions linkHost before links).length = links.length := by
  induction links generalizing before with
  | nil => rfl
  | cons link links ih => rw [hostPositions, List.length_cons, ih, List.length_cons]

theorem numberMirrors_urls (web : Web Url) (links : List String) (mirrors : Option GroupMirrors) :
    (numberMirrors web links mirrors).map GroupLink.url = links := by
  unfold numberMirrors
  rw [List.map_map]
  refine List.map_fst_zip (Nat.le_of_eq ?_)
  cases mirrors with
  | none => exact (List.length_map ..).symm
  | some mirrors =>
    cases mirrors with
    | all => exact (List.length_map ..).symm
    | byHost => exact (length_hostPositions ..).symm

theorem packageFrom_congr {vars vars' : Variables} {source : PackageSource}
    (h : ∀ name ∈ source.reads, vars' name = vars name) :
    Run.packageFrom setting vars' source = Run.packageFrom setting vars source := by
  cases source with
  | title =>
    dsimp only [Run.packageFrom]
    rw [h _ (List.mem_singleton_self _)]
  | regex pattern source =>
    dsimp only [Run.packageFrom]
    rw [h _ (List.mem_singleton_self _)]
  | «variable» name =>
    dsimp only [Run.packageFrom]
    rw [h _ (List.mem_singleton_self _)]

theorem yielded_beside {written : List String}
    (h : Beside base written groups.Unread next state) :
    yielded setting groups fallback state = yielded setting groups fallback next := by
  have hread {name : String} (hname : name ∈ groups.reads) : state.vars name = next.vars name :=
    h.2.vars name fun hunread => hunread.1 hname
  have hpage : Run.currentPage setting state = Run.currentPage setting next :=
    Run.currentPage_beside h.2 fun hunread => hunread.1 List.mem_cons_self
  have hlinks : Run.absoluteLinks setting state = Run.absoluteLinks setting next := by
    funext value
    rw [Run.absoluteLinks, Run.absoluteLinks, hpage]
  have hpackage : Run.packageFrom setting state.vars groups.package =
      Run.packageFrom setting next.vars groups.package :=
    packageFrom_congr fun name hname => hread (List.mem_append_right _ hname)
  rw [yielded, yielded, hlinks, hpackage, h.2.vars _ fun hunread => hunread.2.1 rfl]

theorem yielded_of_links {value : Value} (h : next.vars linksVariable = some value) :
    yielded setting groups fallback next =
      if Run.absoluteLinks setting next value = [] then none
      else some {
        name := (Run.packageFrom setting next.vars groups.package).or fallback
        links := numberMirrors setting.web (Run.absoluteLinks setting next value)
          groups.mirrors } := by
  rw [yielded, h]

/-- Within the limit, an entry alone. -/
def Few (setting : Setting Url) (next : Run Url) : Prop :=
  ∀ value, next.vars linksVariable = some value → value.iter.length ≤ setting.limits.maxLinks

section

variable {saved : List (String × Option Value)} {deepest proposed : Nat} {seen : List String}
  {found : List CrawlGroup} {answer : Nat × List CrawlGroup} {last : Run Url}

/-- One turn of the loop: the steps of the group went through, and the packages go on from what the
entry yields. -/
theorem groupEntries_cons_ok (hsaved : run.vars.restore saved = base.vars)
    (h : (Run.groupEntries setting groups fallback saved base.depth base.way (entry :: entries)
      deepest seen proposed found).exec run = (.ok answer, last)) :
    ∃ next, (Run.steps setting setting.rule.steps.length groups.steps).exec
        (run.entered base.vars groups entry base.depth base.way) = (.ok (), next) ∧
      Few setting next ∧ ∃ deepest' seen' proposed' found',
        (Run.groupEntries setting groups fallback saved base.depth base.way entries deepest' seen'
          proposed' found').exec next = (.ok answer, last) ∧
        ∀ packages, found' ++ deliver setting.web groups.mirrors seen' packages =
          found ++ deliver setting.web groups.mirrors seen
            (yielded setting groups fallback next :: packages) := by
  obtain ⟨_, _, ⟨⟩, h⟩ := exec_bind_eq_ok h
  obtain ⟨_, _, ⟨⟩, h⟩ := exec_bind_eq_ok h
  obtain ⟨_, next, hsteps, h⟩ := exec_bind_eq_ok h
  obtain ⟨_, _, ⟨⟩, h⟩ := exec_bind_eq_ok h
  refine ⟨next, ?_, ?_⟩
  · dsimp only at hsteps
    rw [hsaved] at hsteps
    exact hsteps
  · dsimp only at h
    split at h
    next hnone =>
      have hfew : Few setting next := fun value hvalue => nomatch hnone.symm.trans hvalue
      refine ⟨hfew, _, _, _, _, h, fun packages => ?_⟩
      rw [yielded, hnone]
      rfl
    next value hvalue =>
      split at h
      next => cases h
      next hfew =>
        refine ⟨fun value' hvalue' => ?_, ?_⟩
        · cases hvalue.symm.trans hvalue'
          omega
        · have hyielded : yielded setting groups fallback next = _ := yielded_of_links hvalue
          split at h
          next hdelivered =>
            refine ⟨_, _, _, _, h, fun packages => ?_⟩
            rw [hyielded]
            split
            next => rfl
            next => rw [deliver, numberMirrors_urls, if_pos hdelivered]
          next hnew =>
            refine ⟨_, _, _, _, h, fun packages => ?_⟩
            have hlinks : Run.absoluteLinks setting next value ≠ [] := by
              intro heq
              exact hnew (by rw [heq]; rfl)
            rw [hyielded, if_neg hlinks, deliver, numberMirrors_urls, if_neg hnew,
              List.append_assoc]
            rfl

/-- The loop over `entry` alone. -/
theorem groupEntries_alone (hsaved : state.vars.restore saved = state.vars)
    (hsteps : (Run.steps setting setting.rule.steps.length groups.steps).exec
      (state.entered state.vars groups entry state.depth state.way) = (.ok (), next))
    (hfew : Few setting next) :
    (Run.groupEntries setting groups fallback saved state.depth state.way [entry] deepest [] 0
      []).exec state =
        (.ok (max deepest next.depth, (yielded setting groups fallback next).toList), next) := by
  unfold Run.groupEntries
  refine (exec_bind_ok rfl).trans ((exec_bind_ok rfl).trans ?_)
  have hentered : (Run.steps setting setting.rule.steps.length groups.steps).exec
      { state with
        vars := ((state.vars.restore saved).unset linksVariable).set groups.entryVariable
          (.one entry) } = (.ok (), next) := by
    rw [hsaved]
    exact hsteps
  refine (exec_bind_ok hentered).trans ((exec_bind_ok rfl).trans ?_)
  dsimp only
  split
  next hnone =>
    rw [yielded, hnone]
    rfl
  next value hvalue =>
    have hall : (Run.absoluteLinks setting next value).filter (· ∉ ([] : List String)) =
        Run.absoluteLinks setting next value := List.filter_eq_self.mpr (by simp)
    have hlimit := hfew value hvalue
    rw [if_neg (by omega), hall, yielded_of_links hvalue]
    split
    next => rfl
    next => rfl

/-- What the run over an entry alone answers. -/
theorem alone_of_steps (hsteps : (Run.steps setting setting.rule.steps.length groups.steps).exec
      (state.entered state.vars groups entry state.depth state.way) = (.ok (), next))
    (hfew : Few setting next) :
    AloneYields setting groups fallback state entry (yielded setting groups fallback next) := by
  have hsaved : state.vars.restore (state.vars.saved groups) = state.vars :=
    Variables.restore_saved fun _ _ => rfl
  have hloop : (Run.groupEntries setting groups fallback (state.vars.saved groups) state.depth
      state.way [entry] state.depth [] 0 []).exec state = _ := groupEntries_alone hsaved hsteps hfew
  refine ⟨{ next with
    vars := next.vars.restore (state.vars.saved groups)
    depth := max state.depth next.depth, way := state.way }, ?_⟩
  unfold Run.groupsOver
  refine (exec_bind_ok rfl).trans ((exec_bind_ok hloop).trans ?_)
  refine (exec_bind_ok rfl).trans ((exec_bind_ok rfl).trans ?_)
  cases yielded setting groups fallback next with
  | none => rfl
  | some package => rfl

/-- What an entry yields alone, from every state that has the variables the group reads; the list
may still be there, or hold that entry alone. -/
def YieldsAlone (setting : Setting Url) (groups : Groups) (fallback : Option String)
    (base : Run Url) (entry : String) (package : Option CrawlGroup) : Prop :=
  ∀ state, Lighter groups.Unread base state →
    AloneYields setting groups fallback state entry package ∧
    ∀ value, Run.read state setting.rule.steps.length "groups" groups.source = .ok value →
      value.iter = [entry] →
      ∃ last, (Run.groups setting groups fallback).exec state = (aloneAnswer package, last)

/-- `groups` is the loop over what it reads. -/
theorem groups_exec {value : Value}
    (hread : Run.read state setting.rule.steps.length "groups" groups.source = .ok value)
    (hlimit : value.iter.length ≤ setting.limits.maxLinks) :
    (Run.groups setting groups fallback).exec state =
      (Run.groupsOver setting groups fallback value.iter).exec state := by
  have hget : (MonadState.get : Crawling Url (Run Url)).exec state = (.ok state, state) := rfl
  have hvalue : (MonadExcept.ofExcept
      (Run.read state setting.rule.steps.length "groups" groups.source) :
      Crawling Url Value).exec state = (.ok value, state) := by
    rw [hread]
    rfl
  unfold Run.groups Run.groupsOver
  rw [exec_bind_ok hget, exec_bind_ok hvalue, if_neg (by omega), exec_bind_ok hget]

theorem Lighter.refl (hidden : String → Prop) (run : Run Url) : Lighter hidden run run where
  vars _ _ := rfl
  seen := List.Subset.refl _
  pages := Nat.le_refl _
  depth := rfl
  waited := rfl
  asked := Nat.le_refl _
  way := rfl

/-- The steps of an entry in the whole run are those of the entry alone. -/
theorem entry_apart (hfair : Fair setting) (hlater : Later base groups.written run)
    (hsteps : (Run.steps setting setting.rule.steps.length groups.steps).exec
      (run.entered base.vars groups entry base.depth base.way) = (.ok (), next))
    (hfew : Few setting next) (hlimit : 1 ≤ setting.limits.maxLinks) :
    Later base groups.written next ∧
      YieldsAlone setting groups fallback base entry (yielded setting groups fallback next) := by
  have hbeside (state : Run Url) (hstate : Lighter groups.Unread base state) :=
    groupSteps_repeats hfair groups setting.rule.steps.length _ _
      (entered_beside hlater hstate entry) () next hsteps
  refine ⟨(hbeside base (.refl _ base)).choose_spec.2.1, fun state hstate => ?_⟩
  obtain ⟨next', hsteps', hnext'⟩ := hbeside state hstate
  have hlinks : next'.vars linksVariable = next.vars linksVariable :=
    hnext'.2.vars _ fun hunread => hunread.2.1 rfl
  rw [← yielded_beside hnext']
  have halone : AloneYields setting groups fallback state entry _ :=
    alone_of_steps hsteps' fun value hvalue => hfew value (hlinks ▸ hvalue)
  refine ⟨halone, fun value hread hentry => ?_⟩
  rw [groups_exec hread (by rw [hentry]; exact hlimit), hentry]
  exact halone

/-- The whole loop delivers what the entries yield alone. -/
theorem groupEntries_apart (hfair : Fair setting) (hlater : Later base groups.written run)
    (hlimit : entries.length ≤ setting.limits.maxLinks)
    (h : (Run.groupEntries setting groups fallback (base.vars.saved groups) base.depth base.way
      entries deepest seen proposed found).exec run = (.ok answer, last)) :
    ∃ packages, List.Forall₂ (YieldsAlone setting groups fallback base) entries packages ∧
      answer.2 = found ++ deliver setting.web groups.mirrors seen packages := by
  induction entries generalizing run deepest seen proposed found with
  | nil =>
    cases h
    exact ⟨[], .nil, (List.append_nil found).symm⟩
  | cons entry entries ih =>
    obtain ⟨next, hsteps, hfew, _, _, _, _, hrest, hdeliver⟩ :=
      groupEntries_cons_ok (Variables.restore_saved hlater.vars) h
    rw [List.length_cons] at hlimit
    obtain ⟨hnext, hyields⟩ := entry_apart hfair hlater hsteps hfew (by omega)
    obtain ⟨packages, hpackages, hanswer⟩ := ih hnext (by omega) hrest
    exact ⟨_ :: packages, .cons hyields hpackages, hanswer.trans (hdeliver packages)⟩

end

theorem Later.refl (written : List String) (run : Run Url) : Later run written run where
  vars _ _ := rfl
  seen := List.Subset.refl _
  pages := Nat.le_refl _
  waited := rfl
  asked := Nat.le_refl _

/-- What the groups of a run answer is what its entries yield alone, each link delivered once. -/
theorem groups_deliver (hfair : Fair setting) {found : List CrawlGroup} {last : Run Url}
    (h : (Run.groups setting groups fallback).exec run = (.ok found, last)) :
    ∃ value packages,
      Run.read run setting.rule.steps.length "groups" groups.source = .ok value ∧
      List.Forall₂ (YieldsAlone setting groups fallback run) value.iter packages ∧
      found = deliver setting.web groups.mirrors [] packages := by
  obtain ⟨_, _, ⟨⟩, h⟩ := exec_bind_eq_ok h
  obtain ⟨value, _, hvalue, h⟩ := exec_bind_eq_ok h
  cases hread : Run.read run setting.rule.steps.length "groups" groups.source with
  | error error =>
    rw [hread] at hvalue
    cases hvalue
  | ok value =>
    rw [hread] at hvalue
    cases hvalue
    split at h
    next => cases h
    next hlimit =>
      obtain ⟨⟨deepest, found⟩, next, hloop, h⟩ := exec_bind_eq_ok h
      obtain ⟨_, _, ⟨⟩, h⟩ := exec_bind_eq_ok h
      obtain ⟨_, _, ⟨⟩, h⟩ := exec_bind_eq_ok h
      obtain ⟨packages, hpackages, hfound⟩ :=
        groupEntries_apart hfair (.refl _ run) (Nat.le_of_not_lt hlimit) hloop
      split at h
      next => cases h
      next =>
        cases h
        exact ⟨value, packages, rfl, hpackages, hfound⟩

/-- What the entries of a rule's list yield, each as the only one. -/
def EntriesYield (executor : Executor Url) (rule : Rule) (groups : Groups) (address : Url)
    (packages : List (Option CrawlGroup)) : Prop :=
  let setting := executor.setting rule ((rule.revive executor.web address).getD address) address
    false
  ∃ run value, (Run.steps setting 0 rule.steps).exec (Run.new setting) = (.ok (), run) ∧
    Run.read run rule.steps.length "groups" groups.source = .ok value ∧
    List.Forall₂
      (YieldsAlone setting groups (Run.packageFrom setting run.vars rule.package) run)
      value.iter packages

/-- Groups do not see each other: where a run succeeds, each entry yields what it would yield as
the only one, and the packages are these with each link delivered once; an entry without a link
that is new yields none. -/
theorem groups_apart (executor : Executor Url) (rule : Rule) (groups : Groups) (address : Url)
    (crawl : Crawl Url) (hgroups : rule.groups = some groups) (hpick : groups.pick = none)
    (hsteady : Steady executor.ports) (hrun : (executor.run rule address).1 = .ok crawl) :
    ∃ packages, EntriesYield executor rule groups address packages ∧
      crawl.groups = deliver executor.web groups.mirrors [] packages := by
  unfold Executor.run at hrun
  dsimp only at hrun
  split at hrun
  next =>
    obtain ⟨_, run, hsteps, hfinish⟩ := exec_bind_eq_ok (Prod.ext hrun rfl)
    obtain ⟨_, _, ⟨⟩, hfinish⟩ := exec_bind_eq_ok hfinish
    have hrule : (executor.setting rule ((rule.revive executor.web address).getD address) address
        false).rule.groups = some groups := hgroups
    rw [hrule] at hfinish
    dsimp only at hfinish
    rw [hpick] at hfinish
    obtain ⟨found, _, hfound, hfinish⟩ := exec_bind_eq_ok hfinish
    obtain ⟨_, _, _, hfinish⟩ := exec_bind_eq_ok hfinish
    cases hfinish
    obtain ⟨value, packages, hread, hpackages, hdeliver⟩ := groups_deliver ⟨hsteady, rfl⟩ hfound
    exact ⟨packages, ⟨run, value, hsteps, hread, hpackages⟩, hdeliver⟩
  next => cases hrun

/-- Addresses are their own texts; a pattern finds two rows, and both stand for one link. -/
def rowsWeb : Web String where
  parse := some
  join _ := some
  text := id
  scheme _ := "http"
  hostStr := some
  literalAddress _ := none
  setHost _ _ := none
  withoutFragment := id
  pathAndQuery := id
  linkHost := id
  captures _ := some fun _ => ["a", "b"]
  jsonAt _ _ := .error ""
  decode _ _ := some "l"

def rowsGroups : Groups where
  source := "rows"
  into := none
  pick := none
  steps := [.decode .hex "entry" "links"]
  package := .variable "entry"
  mirrors := none

def rowsRule : Rule where
  matched := { hosts := ["h"], paths := [] }
  dead := []
  steps := [.regex "" (some "url") "rows" true]
  package := .title
  mirrors := false
  groups := some rowsGroups

def rowsExecutor : Executor String where
  web := rowsWeb
  ports := {
    fetch := fun _ _ => .error .timeout
    resolve := fun _ _ => .ok []
    captcha := none
    elapsed := id
    deviceId := none }
  limits := {
    maxDepth := 1, maxPages := 1, maxLinks := 2, maxTotalTime := 60, maxResponseBytes := 1
    requestTimeout := 1 }

def rowsCrawl : Crawl String where
  address := "h"
  links := ["l"]
  packageName := none
  pagesFetched := 0
  mirrors := false
  groups := [{ name := some "a", links := [{ url := "l", mirror := none }] }]
  pick := none

theorem rowsPorts_steady : Steady rowsExecutor.ports where
  fetch _ _ _ := rfl
  resolve _ _ _ := rfl
  captcha _ h := nomatch h
  elapsed _ _ := id

/-- Two rows with one link: what each yields alone, and the one package that is left. -/
theorem groups_apart_rows : ∃ packages,
    EntriesYield rowsExecutor rowsRule rowsGroups "h" packages ∧
      rowsCrawl.groups = deliver rowsWeb rowsGroups.mirrors [] packages :=
  groups_apart rowsExecutor rowsRule rowsGroups "h" rowsCrawl rfl rfl rowsPorts_steady rfl

/-- An entry whose links were all delivered before yields no package, though alone it has one. -/
theorem delivered_entry_without_package : ¬ ∀ (executor : Executor String) (rule : Rule)
    (groups : Groups) (address : String) (crawl : Crawl String), rule.groups = some groups →
      groups.pick = none → Steady executor.ports → (executor.run rule address).1 = .ok crawl →
      ∃ packages, EntriesYield executor rule groups address packages ∧
        crawl.groups.map CrawlGroup.name = packages.reduceOption.map CrawlGroup.name := by
  intro h
  obtain ⟨packages, ⟨run, value, hsteps, hread, hpackages⟩, hnames⟩ :=
    h rowsExecutor rowsRule rowsGroups "h" rowsCrawl rfl rfl rowsPorts_steady rfl
  cases hsteps
  cases hread
  change List.Forall₂ _ ["a", "b"] packages at hpackages
  cases hpackages with
  | @cons _ first _ _ hfirst hrest =>
    cases hrest with
    | @cons _ second _ _ hsecond hnil =>
      cases hnil
      obtain ⟨⟨_, hfirst⟩, -⟩ := hfirst _ (.refl _ _)
      obtain ⟨⟨_, hsecond⟩, -⟩ := hsecond _ (.refl _ _)
      cases first with
      | none => exact absurd (congrArg Prod.fst hfirst) nofun
      | some first =>
        cases second with
        | none => exact absurd (congrArg Prod.fst hsecond) nofun
        | some second =>
          have hlength := congrArg List.length hnames
          simp [rowsCrawl] at hlength

end SiteRules

end RDownloader
