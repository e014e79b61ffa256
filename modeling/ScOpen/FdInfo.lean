import ScOpen.CTypes
import ScOpen.ServerTables

/-!
# Names of descriptors

The handler keeps a table of the connections that were opened: the name, the descriptor, and the
client that has sent the last message. `get_name` looks a descriptor up in both columns. An entry is
found again by its name; nothing is cleared when a descriptor is closed, and the system may hand out
its number again.
-/

namespace ScOpen

/-- An entry of `fd_info`; an empty name marks it as unused. -/
structure FdInfo where
  name : Bytes
  fd : ℤ
  clientFd : ℤ

abbrev FdInfos : Type := Fin MAX_FDS → FdInfo

/-- The number stands in the entry, whether it was ever set or not. -/
def FdInfo.Has (info : FdInfo) (fd : ℤ) : Prop := info.fd = fd ∨ info.clientFd = fd

instance (info : FdInfo) (fd : ℤ) : Decidable (info.Has fd) :=
  inferInstanceAs (Decidable (_ ∨ _))

def initHandler : FdInfos := fun _ => ⟨[], 0, 0⟩

/-- `get_name()`; a descriptor in no entry ends the process. -/
def getName (fd : ℤ) (infos : FdInfos) : Option Bytes :=
  (searchTable fun i => decide ((infos i).Has fd)).2.map fun i => (infos i).name

def findName (name : Bytes) (infos : FdInfos) : Option (Fin MAX_FDS) :=
  (searchTable fun i => decide ((infos i).name = name)).2

def getFd (name : Bytes) (infos : FdInfos) : ℤ :=
  match findName name infos with
  | some i => (infos i).fd
  | none => 0

def updateFdInfo (name : Bytes) (clientFd : ℤ) (infos : FdInfos) : FdInfos :=
  match findName name infos with
  | some i => Function.update infos i { infos i with clientFd := clientFd }
  | none => infos

/-- `set_fd_info()`; a full table ends the process. -/
def setFdInfo (name : Bytes) (fd : ℤ) (infos : FdInfos) : Option FdInfos :=
  match (findName name infos).orElse fun _ => findName [] infos with
  | some i => some (Function.update infos i { infos i with name := name, fd := fd })
  | none => none

/-- What a descriptor is to its connection: clients connect to it, messages come over it, or it is a
client that has connected to a server's descriptor. -/
inductive FdKind where
  | server
  | connection
  | client (fd : ℤ)

structure FdOwner where
  name : Bytes
  kind : FdKind

structure Connections where
  infos : FdInfos
  owner : ℤ → Option FdOwner
  lastHandled : Bytes → Option ℤ

inductive ConnectionCall where
  | openServer (name : Bytes) (fd : ℤ)
  | openConnection (name : Bytes) (fd : ℤ)
  | openMbx (name : Bytes)
  | accept (fd clientFd : ℤ)
  | handle (fd : ℤ)
  | disconnect (fd : ℤ)
  | close (name : Bytes)

def Connections.opened (name : Bytes) (fd : ℤ) (kind : FdKind) (s : Connections) :
    Option Connections :=
  if s.owner fd = none then
    (setFdInfo name fd s.infos).map fun infos => { s with
      infos := infos
      owner := Function.update s.owner fd (some ⟨name, kind⟩) }
  else none

def Connections.handler (sFd cFd : ℤ) (s : Connections) : Option Connections :=
  (getName sFd s.infos).map fun name => { s with
    infos := updateFdInfo name cFd s.infos
    lastHandled := fun n => if (s.owner cFd).map FdOwner.name = some n then some cFd
      else s.lastHandled n }

/-- A server is never given the number 0, which stands for a failure to open it. -/
def Connections.step (s : Connections) : ConnectionCall → Option Connections
  | .openServer name fd => if fd = 0 then none else s.opened name fd .server
  | .openConnection name fd => s.opened name fd .connection
  | .openMbx name => (setFdInfo name 0 s.infos).map fun infos => { s with infos := infos }
  | .accept fd clientFd =>
      match s.owner fd, getName fd s.infos, s.owner clientFd with
      | some ⟨name, .server⟩, some _, none => some { s with
          owner := Function.update s.owner clientFd (some ⟨name, .client fd⟩) }
      | _, _, _ => none
  | .handle fd =>
      match s.owner fd with
      | some ⟨_, .client sFd⟩ => s.handler sFd fd
      | some ⟨_, .connection⟩ => s.handler fd fd
      | _ => none
  | .disconnect fd => some { s with owner := Function.update s.owner fd none }
  | .close name =>
      let fd := getFd name s.infos
      if fd = 0 then some s else some { s with owner := Function.update s.owner fd none }

def Connections.start : Connections where
  infos := initHandler
  owner := fun _ => none
  lastHandled := fun _ => none

def Connections.Entered (s : Connections) (fd : ℤ) (owner : FdOwner) : Prop :=
  (∀ sFd, owner.kind ≠ .client sFd) ∨ s.lastHandled owner.name = some fd

def Connections.NameRight (s : Connections) (fd : ℤ) : Prop :=
  ∀ owner, s.owner fd = some owner → getName fd s.infos = some owner.name

/-! ## The table -/

theorem getName_some {fd : ℤ} {infos : FdInfos} {name : Bytes} (h : getName fd infos = some name) :
    ∃ i, (infos i).name = name ∧ (infos i).Has fd ∧ ∀ k < i, ¬ (infos k).Has fd := by
  rw [getName, Option.map_eq_some_iff] at h
  obtain ⟨i, hi, hname⟩ := h
  obtain ⟨hhas, hbefore, -⟩ := searchTable_some hi
  exact ⟨i, hname, of_decide_eq_true hhas, fun k hk => of_decide_eq_false (hbefore k hk)⟩

theorem getName_none {fd : ℤ} {infos : FdInfos} (h : getName fd infos = none) (i : Fin MAX_FDS) :
    ¬ (infos i).Has fd := by
  rw [getName, Option.map_eq_none_iff] at h
  exact of_decide_eq_false ((searchTable_none h).2 i)

theorem findName_some {name : Bytes} {infos : FdInfos} {i : Fin MAX_FDS}
    (h : findName name infos = some i) :
    (infos i).name = name ∧ ∀ k < i, (infos k).name ≠ name := by
  obtain ⟨hi, hbefore, -⟩ := searchTable_some h
  exact ⟨of_decide_eq_true hi, fun k hk => of_decide_eq_false (hbefore k hk)⟩

theorem findName_none {name : Bytes} {infos : FdInfos} (h : findName name infos = none)
    (i : Fin MAX_FDS) : (infos i).name ≠ name :=
  of_decide_eq_false ((searchTable_none h).2 i)

/-- A name is put into its entry, or into the first unused one. -/
theorem setFdInfo_some {name : Bytes} {fd : ℤ} {infos infos' : FdInfos}
    (h : setFdInfo name fd infos = some infos') :
    ∃ i, infos' = Function.update infos i { infos i with name := name, fd := fd } ∧
      ((infos i).name = name ∨ (∀ k, (infos k).name ≠ name) ∧ (infos i).name = [] ∧
        ∀ k < i, (infos k).name ≠ []) := by
  rw [setFdInfo] at h
  cases hname : findName name infos with
  | some i =>
      rw [hname] at h
      exact ⟨i, (Option.some.inj h).symm, .inl (findName_some hname).1⟩
  | none =>
      rw [hname] at h
      cases hfree : findName [] infos with
      | some i =>
          rw [hfree] at h
          exact ⟨i, (Option.some.inj h).symm, .inr ⟨findName_none hname, findName_some hfree⟩⟩
      | none =>
          rw [hfree] at h
          cases h

/-! ## What is kept -/

/-- Each name has one entry, unused entries come last, a connection's own descriptor stands in its
entry, and an open descriptor stands in no other one; only the number 0 may also stand in later
entries, where it was never set. -/
structure Connections.Kept (s : Connections) : Prop where
  unique : ∀ i k, (s.infos i).name = (s.infos k).name → (s.infos i).name ≠ [] → i = k
  packed : ∀ i k, i < k → (s.infos i).name = [] → (s.infos k).name = []
  unused : ∀ k, (s.infos k).name = [] → (s.infos k).fd = 0 ∧ (s.infos k).clientFd = 0
  named : ∀ fd owner, s.owner fd = some owner → owner.name ≠ []
  nonzero : ∀ fd name, s.owner fd = some ⟨name, .server⟩ → fd ≠ 0
  own : ∀ fd name kind, s.owner fd = some ⟨name, kind⟩ →
    (∃ sFd, kind = .client sFd) ∨ ∃ i, (s.infos i).name = name ∧ (s.infos i).fd = fd
  others : ∀ fd name kind, s.owner fd = some ⟨name, kind⟩ → ∀ k, (s.infos k).name ≠ name →
    (s.infos k).Has fd → kind = .connection ∧ fd = 0 ∧ ∃ i < k, (s.infos i).name = name
  servers : ∀ fd name sFd, s.owner fd = some ⟨name, .client sFd⟩ →
    sFd ≠ 0 ∧ (∀ k, (s.infos k).name ≠ name → ¬ (s.infos k).Has sFd) ∧
      ∀ owner, s.owner sFd = some owner → owner.name = name
  handled : ∀ name fd, s.lastHandled name = some fd →
    name ≠ [] ∧ ∃ i, (s.infos i).name = name ∧ (s.infos i).clientFd = fd

theorem kept_start : Connections.start.Kept where
  unique := fun _ _ _ h => absurd rfl h
  packed := fun _ _ _ _ => rfl
  unused := fun _ _ => ⟨rfl, rfl⟩
  named := nofun
  nonzero := nofun
  own := nofun
  others := nofun
  servers := nofun
  handled := nofun

/-- The entry in which an open descriptor is found first is its connection's. -/
theorem Connections.Kept.found {s : Connections} (hs : s.Kept) {fd : ℤ} {owner : FdOwner}
    (howner : s.owner fd = some owner) {name : Bytes} (h : getName fd s.infos = some name) :
    name = owner.name := by
  obtain ⟨k, hname, hhas, hbefore⟩ := getName_some h
  by_contra hne
  obtain ⟨hkind, -, j, hjk, hj⟩ :=
    hs.others fd owner.name owner.kind howner k (fun heq => hne (hname.symm.trans heq)) hhas
  rcases hs.own fd owner.name owner.kind howner with ⟨sFd, hclient⟩ | ⟨i, hi, hfd⟩
  · cases hkind.symm.trans hclient
  · have hij : i = j := hs.unique i j (hi.trans hj.symm) (hi ▸ hs.named fd owner howner)
    exact hbefore i (hij ▸ hjk) (.inl hfd)

theorem Connections.Kept.nameRight {s : Connections} (hs : s.Kept) {fd : ℤ}
    (h : ∀ owner, s.owner fd = some owner → s.Entered fd owner) : s.NameRight fd := by
  intro owner howner
  cases hfound : getName fd s.infos with
  | some name => exact congrArg some (hs.found howner hfound)
  | none =>
      have hnone := getName_none hfound
      rcases h owner howner with hown | hlast
      · rcases hs.own fd owner.name owner.kind howner with ⟨sFd, hclient⟩ | ⟨i, -, hfd⟩
        · exact absurd hclient (hown sFd)
        · exact absurd (.inl hfd) (hnone i)
      · obtain ⟨-, i, -, hclientFd⟩ := hs.handled owner.name fd hlast
        exact absurd (.inr hclientFd) (hnone i)

/-! ## Steps -/

def Connections.NewName (s : Connections) (name : Bytes) : Prop :=
  name ≠ [] ∧ ∀ fd kind, s.owner fd = some ⟨name, kind⟩ → ∃ sFd, kind = .client sFd

/-- The number stands in the entry of no other name, and no client of another connection that is
still open has connected to it. -/
def Connections.NewNumber (s : Connections) (name : Bytes) (fd : ℤ) : Prop :=
  (∀ k, (s.infos k).name ≠ name → (s.infos k).name ≠ [] → ¬ (s.infos k).Has fd) ∧
    ∀ cFd other sFd, s.owner cFd = some ⟨other, .client sFd⟩ → other ≠ name → sFd ≠ fd

def Connections.Fresh (s : Connections) : ConnectionCall → Prop
  | .openServer name fd => s.NewName name ∧ s.NewNumber name fd
  | .openConnection name fd => s.NewName name ∧ s.NewNumber name fd
  | .openMbx name => s.NewName name ∧ (s.owner 0 = none ∨ ∀ k, (s.infos k).name ≠ name)
  | .accept fd clientFd => ∀ owner, s.owner fd = some owner → s.NewNumber owner.name clientFd ∧
      ∀ k, (s.infos k).name = [] → ¬ (s.infos k).Has clientFd
  | _ => True

/-- Fewer descriptors are open. -/
theorem Connections.Kept.closed {s : Connections} (hs : s.Kept) (fd : ℤ) :
    { s with owner := Function.update s.owner fd none }.Kept := by
  have hopen : ∀ g owner, Function.update s.owner fd none g = some owner →
      s.owner g = some owner := by
    intro g owner h
    by_cases hg : g = fd
    · rw [hg, Function.update_self] at h
      cases h
    · rwa [Function.update_of_ne hg] at h
  exact {
    unique := hs.unique
    packed := hs.packed
    unused := hs.unused
    named := fun g owner h => hs.named g owner (hopen _ _ h)
    nonzero := fun g name h => hs.nonzero g name (hopen _ _ h)
    own := fun g name kind h => hs.own g name kind (hopen _ _ h)
    others := fun g name kind h => hs.others g name kind (hopen _ _ h)
    servers := fun g name sFd h => by
      obtain ⟨hzero, hnot, howner⟩ := hs.servers g name sFd (hopen _ _ h)
      exact ⟨hzero, hnot, fun owner h => howner owner (hopen _ _ h)⟩
    handled := hs.handled }

/-- A descriptor is opened whose number stands where it should. -/
theorem Connections.Kept.given {s : Connections} (hs : s.Kept) {fd : ℤ} {name : Bytes}
    {kind : FdKind} (hname : name ≠ []) (hzero : kind = .server → fd ≠ 0)
    (hown : (∃ sFd, kind = .client sFd) ∨ ∃ i, (s.infos i).name = name ∧ (s.infos i).fd = fd)
    (hothers : ∀ k, (s.infos k).name ≠ name → (s.infos k).Has fd →
      kind = .connection ∧ fd = 0 ∧ ∃ i < k, (s.infos i).name = name)
    (hservers : ∀ sFd, kind = .client sFd → sFd ≠ 0 ∧
      (∀ k, (s.infos k).name ≠ name → ¬ (s.infos k).Has sFd) ∧
        ∀ owner, s.owner sFd = some owner → owner.name = name)
    (hclients : ∀ cFd other sFd, s.owner cFd = some ⟨other, .client sFd⟩ → other ≠ name →
      sFd ≠ fd) :
    { s with owner := Function.update s.owner fd (some ⟨name, kind⟩) }.Kept := by
  have hopen : ∀ g owner, Function.update s.owner fd (some ⟨name, kind⟩) g = some owner →
      g = fd ∧ owner = ⟨name, kind⟩ ∨ s.owner g = some owner := by
    intro g owner h
    by_cases hg : g = fd
    · rw [hg, Function.update_self] at h
      exact .inl ⟨hg, (Option.some.inj h).symm⟩
    · rw [Function.update_of_ne hg] at h
      exact .inr h
  refine ⟨hs.unique, hs.packed, hs.unused, ?_, ?_, ?_, ?_, ?_, hs.handled⟩
  · intro g owner h
    rcases hopen g owner h with ⟨-, rfl⟩ | h
    · exact hname
    · exact hs.named g owner h
  · intro g n h
    rcases hopen g _ h with ⟨rfl, heq⟩ | h
    · exact hzero (congrArg FdOwner.kind heq).symm
    · exact hs.nonzero g n h
  · intro g n k h
    rcases hopen g _ h with ⟨rfl, heq⟩ | h
    · obtain ⟨rfl, rfl⟩ := FdOwner.mk.inj heq
      exact hown
    · exact hs.own g n k h
  · intro g n k h
    rcases hopen g _ h with ⟨rfl, heq⟩ | h
    · obtain ⟨rfl, rfl⟩ := FdOwner.mk.inj heq
      exact hothers
    · exact hs.others g n k h
  · intro g n sFd h
    rcases hopen g _ h with ⟨rfl, heq⟩ | h
    · obtain ⟨rfl, hkind⟩ := FdOwner.mk.inj heq
      obtain ⟨hne, hnot, howner⟩ := hservers sFd hkind.symm
      refine ⟨hne, hnot, ?_⟩
      intro owner h
      rcases hopen sFd owner h with ⟨-, rfl⟩ | h
      · rfl
      · exact howner owner h
    · obtain ⟨hne, hnot, howner⟩ := hs.servers g n sFd h
      refine ⟨hne, hnot, ?_⟩
      intro owner hsFd
      rcases hopen sFd owner hsFd with ⟨hfd, rfl⟩ | hsFd
      · by_contra hother
        exact hclients g n sFd h (Ne.symm hother) hfd
      · exact howner owner hsFd

/-- The entry that a name is put into: no other one has the name, and the unused ones come later. -/
theorem Connections.Kept.entry {s : Connections} (hs : s.Kept) {fd : ℤ} {name : Bytes}
    {infos' : FdInfos} (hname : name ≠ []) (h : setFdInfo name fd s.infos = some infos') :
    ∃ i, infos' i = ⟨name, fd, (s.infos i).clientFd⟩ ∧ (∀ k, k ≠ i → infos' k = s.infos k) ∧
      ((s.infos i).name = name ∨ (∀ k, (s.infos k).name ≠ name) ∧ (s.infos i).name = []) ∧
      (∀ k, k ≠ i → (s.infos k).name ≠ name) ∧
      ∀ k, k ≠ i → (s.infos k).name = [] → i < k := by
  obtain ⟨i, rfl, hi⟩ := setFdInfo_some h
  refine ⟨i, Function.update_self .., fun k hk => Function.update_of_ne hk .., ?_, ?_, ?_⟩
  · exact hi.imp_right fun ⟨hnew, hunused, _⟩ => ⟨hnew, hunused⟩
  · intro k hk hkn
    rcases hi with hi | ⟨hnew, -, -⟩
    · exact hk (hs.unique k i (hkn.trans hi.symm) (hkn ▸ hname))
    · exact hnew k hkn
  · intro k hk hunused
    rcases lt_or_gt_of_ne hk with hlt | hgt
    · rcases hi with hi | ⟨-, -, hused⟩
      · exact absurd (hi.symm.trans (hs.packed k i hlt hunused)) hname
      · exact absurd hunused (hused k hlt)
    · exact hgt

/-- A number that is not in use is written into the entry of a name, or 0 into a new one. -/
theorem Connections.Kept.written {s : Connections} (hs : s.Kept) {fd : ℤ} {name : Bytes}
    {infos' : FdInfos} (hname : s.NewName name)
    (hfd : s.owner fd = none ∨ fd = 0 ∧ ∀ k, (s.infos k).name ≠ name)
    (hclients : ∀ cFd other sFd, s.owner cFd = some ⟨other, .client sFd⟩ → other ≠ name →
      sFd ≠ fd)
    (h : setFdInfo name fd s.infos = some infos') : { s with infos := infos' }.Kept := by
  obtain ⟨i, hself, hother, hi, honly, hlater⟩ := hs.entry hname.1 h
  have hold : ∀ n : Bytes, n ≠ [] → (s.infos i).name = n → n = name := by
    intro n hn hin
    rcases hi with hi | ⟨-, hi⟩
    · exact hin.symm.trans hi
    · exact absurd (hin.symm.trans hi) hn
  have hunusedNe : ∀ k, (infos' k).name = [] → k ≠ i := by
    rintro k hunused rfl
    rw [hself] at hunused
    exact hname.1 hunused
  refine ⟨?_, ?_, ?_, hs.named, hs.nonzero, ?_, ?_, ?_, ?_⟩ <;> dsimp only
  · intro j k hjk hused
    by_cases hj : j = i <;> by_cases hk : k = i
    · rw [hj, hk]
    · rw [hj, hself, hother k hk] at hjk
      exact absurd hjk.symm (honly k hk)
    · rw [hk, hself, hother j hj] at hjk
      exact absurd hjk (honly j hj)
    · rw [hother j hj, hother k hk] at hjk
      rw [hother j hj] at hused
      exact hs.unique j k hjk hused
  · intro j k hjk hunused
    have hj := hunusedNe j hunused
    rw [hother j hj] at hunused
    have hk : k ≠ i := fun heq => absurd (heq ▸ hjk) (hlater j hj hunused).asymm
    rw [hother k hk]
    exact hs.packed j k hjk hunused
  · intro k hunused
    have hk := hunusedNe k hunused
    rw [hother k hk] at hunused ⊢
    exact hs.unused k hunused
  · intro g n kind howner
    rcases hs.own g n kind howner with hclient | ⟨j, hj, hjfd⟩
    · exact .inl hclient
    · by_cases hji : j = i
      · obtain rfl := hold n (hs.named g _ howner) (hji ▸ hj)
        exact .inl (hname.2 g kind howner)
      · exact .inr ⟨j, by rwa [hother j hji], by rwa [hother j hji]⟩
  · intro g n kind howner k hkn hhas
    have hbefore : kind = .connection ∧ g = 0 ∧ ∃ j < k, (s.infos j).name = n := by
      by_cases hki : k = i
      · rw [hki, hself] at hkn hhas
        have hin : (s.infos i).name ≠ n :=
          fun heq => hkn (hold n (hs.named g _ howner) heq).symm
        rw [hki]
        refine hs.others g n kind howner i hin ?_
        rcases hhas with heq | hclient
        · have heq : fd = g := heq
          rcases hfd with hnone | ⟨hzero, hnew⟩
          · rw [heq, howner] at hnone
            cases hnone
          · rcases hi with hi | ⟨-, hi⟩
            · exact absurd hi (hnew i)
            · exact .inl ((hs.unused i hi).1.trans (hzero.symm.trans heq))
        · exact .inr hclient
      · rw [hother k hki] at hkn hhas
        exact hs.others g n kind howner k hkn hhas
    obtain ⟨hkind, hg, j, hjk, hj⟩ := hbefore
    refine ⟨hkind, hg, j, hjk, ?_⟩
    by_cases hji : j = i
    · rw [hji, hself]
      exact (hold n (hs.named g _ howner) (hji ▸ hj)).symm
    · rwa [hother j hji]
  · intro g n sFd howner
    obtain ⟨hzero, hnot, hsame⟩ := hs.servers g n sFd howner
    refine ⟨hzero, ?_, hsame⟩
    intro k hkn hhas
    by_cases hki : k = i
    · rw [hki, hself] at hkn hhas
      rcases hhas with heq | hclient
      · exact hclients g n sFd howner (Ne.symm hkn) heq.symm
      · exact hnot i (fun heq => hkn (hold n (hs.named g _ howner) heq).symm) (.inr hclient)
    · rw [hother k hki] at hkn hhas
      exact hnot k hkn hhas
  · intro n g hlast
    obtain ⟨hn, j, hj, hjfd⟩ := hs.handled n g hlast
    refine ⟨hn, j, ?_⟩
    by_cases hji : j = i
    · rw [hji, hself]
      exact ⟨(hold n hn (hji ▸ hj)).symm, hji ▸ hjfd⟩
    · rw [hother j hji]
      exact ⟨hj, hjfd⟩

theorem Connections.Kept.opened {s s' : Connections} (hs : s.Kept) {name : Bytes} {fd : ℤ}
    {kind : FdKind} (hkind : kind = .connection ∨ kind = .server ∧ fd ≠ 0)
    (hname : s.NewName name) (hnumber : s.NewNumber name fd)
    (h : s.opened name fd kind = some s') : s'.Kept := by
  rw [Connections.opened] at h
  split_ifs at h with hfree
  obtain ⟨infos', hset, rfl⟩ := Option.map_eq_some_iff.1 h
  obtain ⟨i, hself, hother, -, -, hlater⟩ := hs.entry hname.1 hset
  have hwritten := hs.written hname (.inl hfree) hnumber.2 hset
  refine hwritten.given hname.1 ?_ (.inr ⟨i, ?_, ?_⟩) ?_ ?_ hnumber.2
  · rintro rfl
    rcases hkind with hkind | ⟨-, hzero⟩
    · cases hkind
    · exact hzero
  · exact congrArg FdInfo.name hself
  · exact congrArg FdInfo.fd hself
  · intro k hk hhas
    have hki : k ≠ i := fun heq => hk (heq ▸ congrArg FdInfo.name hself)
    have hk : (infos' k).name ≠ name := hk
    have hhas : (infos' k).Has fd := hhas
    rw [hother k hki] at hk hhas
    by_cases hunused : (s.infos k).name = []
    · have hzero : fd = 0 := by
        obtain ⟨hfd, hclientFd⟩ := hs.unused k hunused
        exact hhas.elim (fun heq => heq.symm.trans hfd) fun heq => heq.symm.trans hclientFd
      refine ⟨?_, hzero, i, hlater k hki hunused, congrArg FdInfo.name hself⟩
      exact hkind.resolve_right fun ⟨_, hne⟩ => hne hzero
    · exact absurd hhas (hnumber.1 k hk hunused)
  · rintro sFd rfl
    rcases hkind with hkind | ⟨hkind, -⟩ <;> cases hkind

/-- A client that is handled becomes the last one of its connection. -/
theorem Connections.Kept.handler {s s' : Connections} (hs : s.Kept) {sFd cFd : ℤ} {owner : FdOwner}
    (howner : s.owner cFd = some owner)
    (hsFd : ∀ name, getName sFd s.infos = some name → name = owner.name)
    (h : s.handler sFd cFd = some s') : s'.Kept := by
  rw [Connections.handler] at h
  obtain ⟨name, hname, rfl⟩ := Option.map_eq_some_iff.1 h
  obtain rfl := hsFd name hname
  obtain ⟨k, hk, -, -⟩ := getName_some hname
  have hne := hs.named cFd owner howner
  obtain ⟨i, hi⟩ : ∃ i, findName owner.name s.infos = some i := by
    refine Option.ne_none_iff_exists'.1 fun hnone => ?_
    exact findName_none hnone k hk
  have hin := (findName_some hi).1
  have hself : updateFdInfo owner.name cFd s.infos i = { s.infos i with clientFd := cFd } := by
    rw [updateFdInfo, hi]
    exact Function.update_self ..
  have hother : ∀ k, k ≠ i → updateFdInfo owner.name cFd s.infos k = s.infos k := by
    intro k hk
    rw [updateFdInfo, hi]
    exact Function.update_of_ne hk ..
  generalize updateFdInfo owner.name cFd s.infos = infos' at hself hother
  have hnames : ∀ k, (infos' k).name = (s.infos k).name := by
    intro k
    by_cases hki : k = i
    · rw [hki, hself]
    · rw [hother k hki]
  have hfds : ∀ k, (infos' k).fd = (s.infos k).fd := by
    intro k
    by_cases hki : k = i
    · rw [hki, hself]
    · rw [hother k hki]
  refine ⟨?_, ?_, ?_, hs.named, hs.nonzero, ?_, ?_, ?_, ?_⟩ <;> dsimp only
  · intro j k hjk hused
    rw [hnames, hnames] at hjk
    rw [hnames] at hused
    exact hs.unique j k hjk hused
  · intro j k hjk hunused
    rw [hnames] at hunused ⊢
    exact hs.packed j k hjk hunused
  · intro k hunused
    have hki : k ≠ i := fun heq => hne (hin.symm.trans (heq ▸ (hnames k).symm.trans hunused))
    rw [hother k hki] at hunused ⊢
    exact hs.unused k hunused
  · intro g n kind hg
    rcases hs.own g n kind hg with hclient | ⟨j, hj, hjfd⟩
    · exact .inl hclient
    · exact .inr ⟨j, (hnames j).trans hj, (hfds j).trans hjfd⟩
  · intro g n kind hg k hkn hkg
    rw [hnames] at hkn
    have hbefore : (s.infos k).Has g := by
      by_cases hki : k = i
      · rw [hki, hself] at hkg
        rw [hki]
        rcases hkg with hfd | hclientFd
        · exact .inl hfd
        · have hclientFd : cFd = g := hclientFd
          rw [← hclientFd, howner] at hg
          exact absurd (hki ▸ hin) (congrArg FdOwner.name (Option.some.inj hg) ▸ hkn)
      · rwa [hother k hki] at hkg
    obtain ⟨hkind, hzero, j, hjk, hj⟩ := hs.others g n kind hg k hkn hbefore
    exact ⟨hkind, hzero, j, hjk, (hnames j).trans hj⟩
  · intro g n sFd' hg
    obtain ⟨hzero, hnot, hsame⟩ := hs.servers g n sFd' hg
    refine ⟨hzero, ?_, hsame⟩
    intro k hkn hkg
    rw [hnames] at hkn
    by_cases hki : k = i
    · rw [hki, hself] at hkg
      rcases hkg with hfd | hclientFd
      · exact hnot k hkn (hki ▸ .inl hfd)
      · have hclientFd : cFd = sFd' := hclientFd
        exact hkn (hki ▸ hin.trans (hsame owner (hclientFd ▸ howner)))
    · rw [hother k hki] at hkg
      exact hnot k hkn hkg
  · intro n g hlast
    rw [howner, Option.map_some] at hlast
    by_cases hn : owner.name = n
    · rw [if_pos (congrArg some hn)] at hlast
      refine ⟨hn ▸ hne, i, (hnames i).trans (hin.trans hn), ?_⟩
      rw [hself]
      exact Option.some.inj hlast
    · rw [if_neg fun heq => hn (Option.some.inj heq)] at hlast
      obtain ⟨hne', j, hj, hjfd⟩ := hs.handled n g hlast
      have hji : j ≠ i := fun heq => hn (hin.symm.trans (heq ▸ hj))
      exact ⟨hne', j, (hnames j).trans hj, by rwa [hother j hji]⟩

theorem Connections.Kept.accept {s : Connections} (hs : s.Kept) {fd clientFd : ℤ} {name : Bytes}
    (howner : s.owner fd = some ⟨name, .server⟩) (hnumber : s.NewNumber name clientFd)
    (hunused : ∀ k, (s.infos k).name = [] → ¬ (s.infos k).Has clientFd) :
    { s with
      owner := Function.update s.owner clientFd (some ⟨name, .client fd⟩) }.Kept := by
  refine hs.given (hs.named fd _ howner) nofun (.inl ⟨fd, rfl⟩) ?_ ?_ hnumber.2
  · intro k hk hhas
    by_cases hfree : (s.infos k).name = []
    · exact absurd hhas (hunused k hfree)
    · exact absurd hhas (hnumber.1 k hk hfree)
  · rintro sFd hclient
    obtain rfl := FdKind.client.inj hclient
    refine ⟨hs.nonzero fd name howner, ?_, ?_⟩
    · intro k hk hhas
      obtain ⟨hserver, -⟩ := hs.others fd name .server howner k hk hhas
      cases hserver
    · intro owner h
      obtain rfl := Option.some.inj (howner.symm.trans h)
      rfl

theorem Connections.Kept.step {s s' : Connections} (hs : s.Kept) {a : ConnectionCall}
    (ha : s.Fresh a) (h : s.step a = some s') : s'.Kept := by
  cases a with
  | openServer name fd =>
      rw [Connections.step] at h
      split_ifs at h with hzero
      exact hs.opened (.inr ⟨rfl, hzero⟩) ha.1 ha.2 h
  | openConnection name fd => exact hs.opened (.inl rfl) ha.1 ha.2 h
  | openMbx name =>
      obtain ⟨infos', hset, rfl⟩ := Option.map_eq_some_iff.1 h
      refine hs.written ha.1 (ha.2.imp_right fun hnew => ⟨rfl, hnew⟩) ?_ hset
      exact fun cFd other sFd howner _ => (hs.servers cFd other sFd howner).1
  | accept fd clientFd =>
      simp only [Connections.step] at h
      split at h
      · rename_i name n howner hname hfree
        obtain rfl := Option.some.inj h
        obtain ⟨hnumber, hunused⟩ := ha _ howner
        exact hs.accept howner hnumber hunused
      · cases h
  | handle fd =>
      simp only [Connections.step] at h
      split at h
      · rename_i name sFd howner
        refine hs.handler howner ?_ h
        intro n hn
        obtain ⟨k, hk, hhas, -⟩ := getName_some hn
        by_contra hne
        exact (hs.servers fd name sFd howner).2.1 k (fun heq => hne (hk.symm.trans heq)) hhas
      · rename_i name howner
        exact hs.handler howner (fun n hn => hs.found howner hn) h
      · cases h
  | disconnect fd =>
      obtain rfl := Option.some.inj h
      exact hs.closed fd
  | close name =>
      simp only [Connections.step] at h
      split_ifs at h
      · obtain rfl := Option.some.inj h
        exact hs
      · obtain rfl := Option.some.inj h
        exact hs.closed _

/-- In every run that opens a name again only after its descriptor was closed, and in which the
numbers that are handed out stand nowhere else in the table, `get_name` returns for a descriptor
that is a connection's own one, or the client that a connection has handled last, the name of the
connection, and for no open descriptor the name of another one. -/
theorem names_right {s : Connections}
    (h : Runs.Reaches Connections.step Connections.Fresh (fun s => s = .start) s) (fd : ℤ) :
    ((∀ owner, s.owner fd = some owner → s.Entered fd owner) → s.NameRight fd) ∧
      ∀ owner name, s.owner fd = some owner → getName fd s.infos = some name →
        name = owner.name := by
  have hkept : s.Kept := by
    refine h.invariant ?_ ?_
    · rintro _ rfl
      exact kept_start
    · exact fun s a s' hs ha hstep => hs.step ha hstep
  exact ⟨hkept.nameRight, fun owner name howner hname => hkept.found howner hname⟩

def serverOpened : Connections where
  infos := Function.update initHandler ⟨0, by decide⟩ ⟨cstr "a", 3, 0⟩
  owner := Function.update (fun _ => none) 3 (some ⟨cstr "a", .server⟩)
  lastHandled := fun _ => none

theorem serverOpened_owner {fd : ℤ} {owner : FdOwner} (h : serverOpened.owner fd = some owner) :
    owner = ⟨cstr "a", .server⟩ := by
  have h : Function.update (fun _ => none) 3 (some ⟨cstr "a", .server⟩) fd = some owner := h
  rw [Function.update_apply] at h
  split_ifs at h
  exact (Option.some.inj h).symm

/-- The number 5 stands in no entry then. -/
theorem serverOpened_fresh : serverOpened.Fresh (.accept 3 5) := by
  have hhas : ∀ k, ¬ (serverOpened.infos k).Has 5 := by decide
  intro owner howner
  obtain rfl := serverOpened_owner howner
  refine ⟨⟨fun k _ _ => hhas k, fun cFd other sFd h => ?_⟩, fun k _ => hhas k⟩
  cases serverOpened_owner h

/-- A client of the server is accepted as 5 and handled. -/
theorem names_right_once :
    ∃ s, Runs.Reaches Connections.step Connections.Fresh (fun s => s = .start) s ∧
      s.owner 5 = some ⟨cstr "a", .client 3⟩ ∧ s.NameRight 5 := by
  have hfresh : Connections.start.Fresh (.openServer (cstr "a") 3) :=
    ⟨⟨by decide, nofun⟩, fun _ _ hused => absurd rfl hused, nofun⟩
  have hopen : Connections.start.step (.openServer (cstr "a") 3) = some serverOpened := rfl
  have hrun : ∃ s s', serverOpened.step (.accept 3 5) = some s ∧ s.step (.handle 5) = some s' ∧
      s'.owner 5 = some ⟨cstr "a", .client 3⟩ ∧ s'.lastHandled (cstr "a") = some 5 :=
    ⟨_, _, rfl, rfl, rfl, rfl⟩
  obtain ⟨s, s', haccept, hhandle, howner, hlast⟩ := hrun
  have hany : s.Fresh (.handle 5) := trivial
  have hreach : Runs.Reaches Connections.step Connections.Fresh (fun s => s = .start) s' :=
    .next (.next (.next (.start rfl) hfresh hopen) serverOpened_fresh haccept) hany hhandle
  refine ⟨s', hreach, howner, (names_right hreach 5).1 fun owner h => .inr ?_⟩
  obtain rfl := Option.some.inj (howner.symm.trans h)
  exact hlast

/-- Server `a` is opened on descriptor 3 and its client 5 is handled. When the client has left and
`b` is opened on 5, this number still has the name `a`; when another client is accepted as 6, this
number has none. -/
theorem names_not_always_right :
    (∃ s, Runs.Reaches Connections.step (fun _ _ => True) (fun s => s = .start) s ∧
      s.owner 5 = some ⟨cstr "b", .connection⟩ ∧ getName 5 s.infos = some (cstr "a") ∧
        ¬ s.NameRight 5) ∧
    ∃ s, Runs.Reaches Connections.step (fun _ _ => True) (fun s => s = .start) s ∧
      s.owner 6 = some ⟨cstr "a", .client 3⟩ ∧ getName 6 s.infos = none ∧ ¬ s.NameRight 6 := by
  have hreused : ∃ s : Connections, [ConnectionCall.openServer (cstr "a") 3, .accept 3 5,
      .handle 5, .disconnect 5, .openConnection (cstr "b") 5].foldlM Connections.step .start =
        some s ∧
      s.owner 5 = some ⟨cstr "b", .connection⟩ ∧ getName 5 s.infos = some (cstr "a") :=
    ⟨_, rfl, rfl, rfl⟩
  have hsecond : ∃ s : Connections, [ConnectionCall.openServer (cstr "a") 3, .accept 3 5,
      .handle 5, .accept 3 6].foldlM Connections.step .start = some s ∧
      s.owner 6 = some ⟨cstr "a", .client 3⟩ ∧ getName 6 s.infos = none :=
    ⟨_, rfl, rfl, rfl⟩
  obtain ⟨s, hs, howner, hname⟩ := hreused
  obtain ⟨s', hs', howner', hname'⟩ := hsecond
  constructor
  · refine ⟨s, Runs.Reaches.run (.start rfl) hs, howner, hname, fun hright => ?_⟩
    have hb : some (cstr "a") = some (cstr "b") := hname.symm.trans (hright _ howner)
    exact absurd hb (by decide)
  · refine ⟨s', Runs.Reaches.run (.start rfl) hs', howner', hname', fun hright => ?_⟩
    cases hname'.symm.trans (hright _ howner')

end ScOpen
