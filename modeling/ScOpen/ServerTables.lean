import Mathlib.Algebra.Group.Nat.Defs
import Mathlib.Data.Finset.Erase
import Mathlib.Data.Finset.Insert
import Mathlib.Data.List.FinRange
import Mathlib.Logic.Function.Basic
import ScOpen.Runs

/-!
# Tables of the server loop

The server keeps the descriptors it listens on in one table and the clients that were accepted in
another, and it waits for the descriptors of a set. Clients are counted while a free place is looked
for, and `maxfd` is raised when a descriptor is added and computed again when a server is taken
away.
-/

namespace ScOpen

abbrev MAX_CLIENTS : ℕ := 100

abbrev MAX_FDS : ℕ := 100

/-- A descriptor the server listens on, or -1; `flag` says that clients connect to it. -/
structure MyFd where
  fd : ℤ
  flag : Bool

/-- A client and the descriptor it has connected to; 0 stands for no client. -/
structure ClientFd where
  clientFd : ℤ
  fd : ℤ

structure Server where
  myFds : Fin MAX_FDS → MyFd
  clientFds : Fin MAX_CLIENTS → ClientFd
  numClients : ℤ
  maxfd : ℤ
  allset : Finset ℤ

/-- The loops over a table: how many places are looked at up to the first one that fits, and that
place. -/
def search {n : ℕ} (fits : Fin n → Bool) : List (Fin n) → ℕ × Option (Fin n)
  | [] => (0, none)
  | i :: is => if fits i then (1, some i) else ((search fits is).1 + 1, (search fits is).2)

def searchTable {n : ℕ} (fits : Fin n → Bool) : ℕ × Option (Fin n) := search fits (List.finRange n)

def initServer : Server where
  myFds := fun _ => ⟨-1, false⟩
  clientFds := fun _ => ⟨0, 0⟩
  numClients := 0
  maxfd := 0
  allset := ∅

/-- The loops that raise `maxfd` to the descriptors of a table. -/
def raiseMaxfd {n : ℕ} (fds : Fin n → ℤ) (maxfd : ℤ) : ℤ :=
  (List.finRange n).foldl (fun maxfd i => if maxfd < fds i then fds i else maxfd) maxfd

def calcMaxfd (s : Server) : Server :=
  let maxfd := raiseMaxfd (fun i => (s.myFds i).fd) s.maxfd
  { s with maxfd := raiseMaxfd (fun j => (s.clientFds j).clientFd) maxfd }

/-- A client is given the first free place, and every place that is looked at is counted. -/
def addClient (clientFd fd : ℤ) (s : Server) : Server :=
  match searchTable fun j => decide ((s.clientFds j).clientFd = 0) with
  | (searched, some j) => { s with
      clientFds := Function.update s.clientFds j ⟨clientFd, fd⟩
      numClients := Int.bmod (s.numClients + searched) (2 ^ 32) }
  | (searched, none) => { s with numClients := Int.bmod (s.numClients + searched) (2 ^ 32) }

/-- `server()` once `accept` has returned a client on place `i` of the table; `none` where it ends
the process. -/
def acceptClient (i : Fin MAX_FDS) (clientFd : ℤ) (s : Server) : Option Server :=
  let s := addClient clientFd (s.myFds i).fd s
  if s.numClients = MAX_CLIENTS then none
  else some (calcMaxfd { s with allset := insert clientFd s.allset })

def setServer (fd : ℤ) (flag : Bool) (s : Server) : Option Server :=
  match searchTable fun i => decide ((s.myFds i).fd = -1) with
  | (searched, found) =>
      if searched = MAX_FDS then none
      else some (calcMaxfd { s with
        myFds := found.elim s.myFds fun i => Function.update s.myFds i ⟨fd, flag⟩
        allset := insert fd s.allset })

/-- The return code 1 says that the descriptor is not in the table. -/
def unsetServer (fd : ℤ) (s : Server) : ℕ × Server :=
  let found := (searchTable fun i => decide ((s.myFds i).fd = fd)).2
  let myFds := found.elim s.myFds fun i => Function.update s.myFds i ⟨-1, false⟩
  (if found = none then 1 else 0, { s with
    myFds := myFds
    maxfd := raiseMaxfd (fun i => (myFds i).fd) 0
    allset := s.allset.erase fd })

def clientDisconnect (fd : ℤ) (s : Server) : Server :=
  match (searchTable fun j => decide ((s.clientFds j).clientFd = fd)).2 with
  | none =>
      match (searchTable fun i => decide ((s.myFds i).fd = fd)).2 with
      | none => s
      | some i => { s with
          myFds := Function.update s.myFds i { s.myFds i with fd := -1 }
          allset := s.allset.erase fd }
  | some j => { s with
      clientFds := Function.update s.clientFds j { s.clientFds j with clientFd := 0 }
      allset := s.allset.erase fd }

inductive ServerCall where
  | accept (i : Fin MAX_FDS) (clientFd : ℤ)
  | setServer (fd : ℤ) (flag : Bool)
  | unsetServer (fd : ℤ)
  | clientDisconnect (fd : ℤ)

def Server.call (s : Server) : ServerCall → Option Server
  | .accept i clientFd =>
      if (s.myFds i).fd ≠ -1 ∧ (s.myFds i).flag = true then acceptClient i clientFd s else some s
  | .setServer fd flag => setServer fd flag s
  | .unsetServer fd => some (unsetServer fd s).2
  | .clientDisconnect fd => some (clientDisconnect fd s)

inductive ServerProcess where
  | up (s : Server)
  | exited (s : Server) (a : ServerCall)

def ServerProcess.step : ServerProcess → ServerCall → Option ServerProcess
  | .up s, a => some ((s.call a).elim (.exited s a) .up)
  | .exited _ _, _ => none

/-! ## Searching a table -/

variable {n : ℕ} {fits : Fin n → Bool}

theorem search_some {is : List (Fin n)} {i : Fin n} (h : (search fits is).2 = some i) :
    ∃ pre post, is = pre ++ i :: post ∧ fits i = true ∧ (∀ j ∈ pre, fits j = false) ∧
      (search fits is).1 = pre.length + 1 := by
  induction is with
  | nil => cases h
  | cons j is ih =>
      by_cases hj : fits j = true
      · rw [search, if_pos hj] at h ⊢
        obtain rfl := Option.some.inj h
        exact ⟨[], is, rfl, hj, nofun, rfl⟩
      · rw [search, if_neg hj] at h ⊢
        obtain ⟨pre, post, rfl, hi, hpre, hsearched⟩ := ih h
        refine ⟨j :: pre, post, rfl, hi, ?_, congrArg (· + 1) hsearched⟩
        exact List.forall_mem_cons.2 ⟨Bool.eq_false_iff.2 hj, hpre⟩

theorem search_none {is : List (Fin n)} (h : (search fits is).2 = none) :
    (search fits is).1 = is.length ∧ ∀ i ∈ is, fits i = false := by
  induction is with
  | nil => exact ⟨rfl, nofun⟩
  | cons j is ih =>
      by_cases hj : fits j = true
      · rw [search, if_pos hj] at h
        cases h
      · rw [search, if_neg hj] at h ⊢
        obtain ⟨hsearched, hnone⟩ := ih h
        exact ⟨congrArg (· + 1) hsearched,
          List.forall_mem_cons.2 ⟨Bool.eq_false_iff.2 hj, hnone⟩⟩

/-- What is found is the first place that fits, and its number tells how many were looked at. -/
theorem searchTable_some {i : Fin n} (h : (searchTable fits).2 = some i) :
    fits i = true ∧ (∀ j < i, fits j = false) ∧ (searchTable fits).1 = i.val + 1 := by
  obtain ⟨pre, post, hsplit, hi, hpre, hsearched⟩ := search_some h
  have hlength : pre.length < (List.finRange n).length := by
    rw [hsplit, List.length_append, List.length_cons]
    omega
  have hget : (List.finRange n)[pre.length] = i := by
    simp only [hsplit, List.getElem_append_right (le_refl _), Nat.sub_self, List.getElem_cons_zero]
  have hval : pre.length = i.val := by
    rw [List.getElem_finRange] at hget
    exact congrArg Fin.val hget
  refine ⟨hi, ?_, by rw [searchTable, hsearched, hval]⟩
  intro j hj
  have hjpre : j.val < pre.length := hval ▸ hj
  have hjlength : j.val < (List.finRange n).length := hjpre.trans hlength
  have hjget : (List.finRange n)[j.val] = j := by rw [List.getElem_finRange]; rfl
  have hjmem : pre[j.val] = j := by
    simpa only [hsplit, List.getElem_append_left hjpre] using hjget
  exact hpre j (hjmem ▸ List.getElem_mem _)

theorem searchTable_none (h : (searchTable fits).2 = none) :
    (searchTable fits).1 = n ∧ ∀ i, fits i = false := by
  obtain ⟨hsearched, hnone⟩ := search_none h
  exact ⟨hsearched.trans (List.length_finRange), fun i => hnone i (List.mem_finRange i)⟩

theorem le_raiseMaxfd_iff {fds : Fin n → ℤ} {maxfd x : ℤ} :
    x ≤ raiseMaxfd fds maxfd ↔ x ≤ maxfd ∨ ∃ i, x ≤ fds i := by
  have hfold : ∀ (is : List (Fin n)) (maxfd : ℤ),
      x ≤ is.foldl (fun maxfd i => if maxfd < fds i then fds i else maxfd) maxfd ↔
        x ≤ maxfd ∨ ∃ i ∈ is, x ≤ fds i := by
    intro is
    induction is with
    | nil => simp
    | cons j is ih =>
        intro maxfd
        rw [List.foldl_cons, ih, List.exists_mem_cons_iff, ← or_assoc]
        refine or_congr_left ?_
        split_ifs with hlt
        · exact ⟨.inr, fun h => h.elim (fun hle => hle.trans hlt.le) id⟩
        · exact ⟨.inl, fun h => h.elim id fun hle => hle.trans (not_lt.1 hlt)⟩
  rw [raiseMaxfd, hfold]
  simp only [List.mem_finRange, true_and]

theorem le_calcMaxfd_iff {s : Server} {x : ℤ} :
    x ≤ (calcMaxfd s).maxfd ↔
      x ≤ s.maxfd ∨ (∃ i, x ≤ (s.myFds i).fd) ∨ ∃ j, x ≤ (s.clientFds j).clientFd := by
  rw [calcMaxfd, le_raiseMaxfd_iff, le_raiseMaxfd_iff, or_assoc]

/-! ## Calls -/

def Server.Accepts (s : Server) (i : Fin MAX_FDS) : Prop :=
  (s.myFds i).fd ≠ -1 ∧ (s.myFds i).flag = true

def FirstAt (fds : Fin n → ℤ) (fd : ℤ) (i : Fin n) : Prop := fds i = fd ∧ ∀ k < i, fds k ≠ fd

theorem FirstAt.unique {fds : Fin n → ℤ} {fd : ℤ} {i j : Fin n} (hi : FirstAt fds fd i)
    (hj : FirstAt fds fd j) : i = j := by
  rcases lt_trichotomy i j with hlt | heq | hlt
  · exact absurd hi.1 (hj.2 i hlt)
  · exact heq
  · exact absurd hj.1 (hi.2 j hlt)

theorem searchTable_cases (fds : Fin n → ℤ) (fd : ℤ) :
    (∃ i, FirstAt fds fd i ∧ searchTable (fun i => decide (fds i = fd)) = (i.val + 1, some i)) ∨
      (∀ i, fds i ≠ fd) ∧ searchTable (fun i => decide (fds i = fd)) = (n, none) := by
  cases hfound : (searchTable fun i => decide (fds i = fd)).2 with
  | some i =>
      obtain ⟨hi, hbefore, hsearched⟩ := searchTable_some hfound
      refine .inl ⟨i, ⟨of_decide_eq_true hi, ?_⟩, Prod.ext hsearched hfound⟩
      exact fun k hk => of_decide_eq_false (hbefore k hk)
  | none =>
      obtain ⟨hsearched, hnone⟩ := searchTable_none hfound
      exact .inr ⟨fun i => of_decide_eq_false (hnone i), Prod.ext hsearched hfound⟩

theorem exists_firstAt (fds : Fin n → ℤ) {fd : ℤ} {i : Fin n} (h : fds i = fd) :
    ∃ j, FirstAt fds fd j := by
  rcases searchTable_cases fds fd with ⟨j, hj, -⟩ | ⟨hnone, -⟩
  · exact ⟨j, hj⟩
  · exact absurd h (hnone i)

def Server.FirstClient (s : Server) (fd : ℤ) (j : Fin MAX_CLIENTS) : Prop :=
  FirstAt (fun j => (s.clientFds j).clientFd) fd j

def Server.FirstFd (s : Server) (fd : ℤ) (i : Fin MAX_FDS) : Prop :=
  FirstAt (fun i => (s.myFds i).fd) fd i

theorem Server.searchClient (s : Server) (fd : ℤ) :
    (∃ j, s.FirstClient fd j ∧
        searchTable (fun j => decide ((s.clientFds j).clientFd = fd)) = (j.val + 1, some j)) ∨
      (∀ j, (s.clientFds j).clientFd ≠ fd) ∧
        searchTable (fun j => decide ((s.clientFds j).clientFd = fd)) = (MAX_CLIENTS, none) :=
  searchTable_cases ..

theorem Server.searchFd (s : Server) (fd : ℤ) :
    (∃ i, s.FirstFd fd i ∧
        searchTable (fun i => decide ((s.myFds i).fd = fd)) = (i.val + 1, some i)) ∨
      (∀ i, (s.myFds i).fd ≠ fd) ∧
        searchTable (fun i => decide ((s.myFds i).fd = fd)) = (MAX_FDS, none) :=
  searchTable_cases ..

/-- A client takes the first free place; the process ends at the hundredth look. -/
theorem acceptClient_free {s : Server} {j : Fin MAX_CLIENTS} (h : s.FirstClient 0 j)
    (i : Fin MAX_FDS) (clientFd : ℤ) :
    acceptClient i clientFd s =
      if Int.bmod (s.numClients + (j.val + 1 : ℕ)) (2 ^ 32) = MAX_CLIENTS then none
      else some (calcMaxfd { s with
        clientFds := Function.update s.clientFds j ⟨clientFd, (s.myFds i).fd⟩
        numClients := Int.bmod (s.numClients + (j.val + 1 : ℕ)) (2 ^ 32)
        allset := insert clientFd s.allset }) := by
  rcases s.searchClient 0 with ⟨k, hk, hsearch⟩ | ⟨hnone, -⟩
  · obtain rfl := hk.unique h
    simp only [acceptClient, addClient, hsearch]
  · exact absurd h.1 (hnone j)

theorem acceptClient_full {s : Server} (h : ∀ j, (s.clientFds j).clientFd ≠ 0)
    (i : Fin MAX_FDS) (clientFd : ℤ) :
    acceptClient i clientFd s =
      if Int.bmod (s.numClients + MAX_CLIENTS) (2 ^ 32) = MAX_CLIENTS then none
      else some (calcMaxfd { s with
        numClients := Int.bmod (s.numClients + MAX_CLIENTS) (2 ^ 32)
        allset := insert clientFd s.allset }) := by
  rcases s.searchClient 0 with ⟨k, hk, -⟩ | ⟨-, hsearch⟩
  · exact absurd hk.1 (h k)
  · simp only [acceptClient, addClient, hsearch]

theorem setServer_free {s : Server} {i : Fin MAX_FDS} (h : s.FirstFd (-1) i) (fd : ℤ)
    (flag : Bool) :
    setServer fd flag s =
      if i.val + 1 = MAX_FDS then none
      else some (calcMaxfd { s with
        myFds := Function.update s.myFds i ⟨fd, flag⟩
        allset := insert fd s.allset }) := by
  rcases s.searchFd (-1) with ⟨k, hk, hsearch⟩ | ⟨hnone, -⟩
  · obtain rfl := hk.unique h
    simp only [setServer, hsearch, Option.elim_some]
  · exact absurd h.1 (hnone i)

theorem setServer_full {s : Server} (h : ∀ i, (s.myFds i).fd ≠ -1) (fd : ℤ) (flag : Bool) :
    setServer fd flag s = none := by
  rcases s.searchFd (-1) with ⟨k, hk, -⟩ | ⟨-, hsearch⟩
  · exact absurd hk.1 (h k)
  · simp only [setServer, hsearch, if_true]

theorem unsetServer_found {s : Server} {fd : ℤ} {i : Fin MAX_FDS} (h : s.FirstFd fd i) :
    unsetServer fd s = (0, { s with
      myFds := Function.update s.myFds i ⟨-1, false⟩
      maxfd := raiseMaxfd (fun k => (Function.update s.myFds i ⟨-1, false⟩ k).fd) 0
      allset := s.allset.erase fd }) := by
  rcases s.searchFd fd with ⟨k, hk, hsearch⟩ | ⟨hnone, -⟩
  · obtain rfl := hk.unique h
    simp only [unsetServer, hsearch, Option.elim_some, reduceCtorEq, if_false]
  · exact absurd h.1 (hnone i)

theorem unsetServer_missing {s : Server} {fd : ℤ} (h : ∀ i, (s.myFds i).fd ≠ fd) :
    unsetServer fd s = (1, { s with
      maxfd := raiseMaxfd (fun k => (s.myFds k).fd) 0
      allset := s.allset.erase fd }) := by
  rcases s.searchFd fd with ⟨k, hk, -⟩ | ⟨-, hsearch⟩
  · exact absurd hk.1 (h k)
  · simp only [unsetServer, hsearch, Option.elim_none, if_true]

/-- The descriptor of a client is taken out of the first place that has it, any other one out of
the other table. -/
theorem clientDisconnect_cases (fd : ℤ) (s : Server) :
    (∃ j, s.FirstClient fd j ∧ clientDisconnect fd s = { s with
      clientFds := Function.update s.clientFds j { s.clientFds j with clientFd := 0 }
      allset := s.allset.erase fd }) ∨
    (∀ j, (s.clientFds j).clientFd ≠ fd) ∧
      ((∃ i, s.FirstFd fd i ∧ clientDisconnect fd s = { s with
          myFds := Function.update s.myFds i { s.myFds i with fd := -1 }
          allset := s.allset.erase fd }) ∨
        (∀ i, (s.myFds i).fd ≠ fd) ∧ clientDisconnect fd s = s) := by
  rcases s.searchClient fd with ⟨j, hj, hsearch⟩ | ⟨hclients, hsearch⟩
  · exact .inl ⟨j, hj, by simp only [clientDisconnect, hsearch]⟩
  · refine .inr ⟨hclients, ?_⟩
    rcases s.searchFd fd with ⟨i, hi, hsearchFd⟩ | ⟨hfds, hsearchFd⟩
    · exact .inl ⟨i, hi, by simp only [clientDisconnect, hsearch, hsearchFd]⟩
    · exact .inr ⟨hfds, by simp only [clientDisconnect, hsearch, hsearchFd]⟩

/-! ## Places -/

/-- What the process ends at has to register a descriptor, and its table is full. -/
def Server.Full (s : Server) : ServerCall → Prop
  | .accept _ _ => ∀ j, (s.clientFds j).clientFd ≠ 0
  | .setServer _ _ => ∀ i, (s.myFds i).fd ≠ -1
  | _ => False

/-- A call goes on unless its table is full, and then a descriptor is registered in a free place, or
the place of the descriptor is free. -/
def Server.Serves (s : Server) (a : ServerCall) : Prop :=
  match s.call a with
  | none => s.Full a
  | some s' =>
      match a with
      | .accept i clientFd => s.Accepts i → ¬ s.Full a → ∃ j, (s.clientFds j).clientFd = 0 ∧
          s'.clientFds = Function.update s.clientFds j ⟨clientFd, (s.myFds i).fd⟩
      | .setServer fd flag => ∃ i, (s.myFds i).fd = -1 ∧
          s'.myFds = Function.update s.myFds i ⟨fd, flag⟩
      | .unsetServer fd => (∃ i, (s.myFds i).fd = fd) → ∃ i, (s.myFds i).fd = fd ∧
          (s'.myFds i).fd = -1
      | .clientDisconnect fd =>
          ((∃ j, (s.clientFds j).clientFd = fd) → ∃ j, (s.clientFds j).clientFd = fd ∧
            (s'.clientFds j).clientFd = 0) ∧
          ((∀ j, (s.clientFds j).clientFd ≠ fd) → (∃ i, (s.myFds i).fd = fd) →
            ∃ i, (s.myFds i).fd = fd ∧ (s'.myFds i).fd = -1)

/-- An accepted client does not bring the number of looks to the size of the table, and a server is
not put into the last place. -/
def Server.HasRoom (s : Server) : ServerCall → Prop
  | .accept i _ => s.Accepts i → ∀ j, s.FirstClient 0 j →
      Int.bmod (s.numClients + (j.val + 1 : ℕ)) (2 ^ 32) ≠ MAX_CLIENTS
  | .setServer _ _ => ∀ i, s.FirstFd (-1) i → i.val + 1 ≠ MAX_FDS
  | _ => True

theorem Server.hasRoom_accept {s : Server} {j : Fin MAX_CLIENTS} (hj : s.FirstClient 0 j)
    (hcount : Int.bmod (s.numClients + (j.val + 1 : ℕ)) (2 ^ 32) ≠ MAX_CLIENTS) (i : Fin MAX_FDS)
    (clientFd : ℤ) : s.HasRoom (.accept i clientFd) := by
  intro _ k hk
  rwa [hk.unique hj]

theorem Server.hasRoom_setServer {s : Server} {i : Fin MAX_FDS} (hi : s.FirstFd (-1) i)
    (hlast : i.val + 1 ≠ MAX_FDS) (fd : ℤ) (flag : Bool) : s.HasRoom (.setServer fd flag) := by
  intro k hk
  rwa [hk.unique hi]

theorem Server.serves_accept_iff (s : Server) (i : Fin MAX_FDS) (clientFd : ℤ) :
    s.HasRoom (.accept i clientFd) ↔ s.Serves (.accept i clientFd) := by
  by_cases haccepts : s.Accepts i
  · have hcall : s.call (.accept i clientFd) = acceptClient i clientFd s := if_pos haccepts
    by_cases hfull : ∀ j, (s.clientFds j).clientFd ≠ 0
    · refine iff_of_true ?_ ?_
      · exact fun _ j hj => absurd hj.1 (hfull j)
      · rw [Serves, hcall, acceptClient_full hfull]
        split_ifs
        · exact hfull
        · exact fun _ hnot => absurd hfull hnot
    · obtain ⟨k, hk⟩ := not_forall.1 hfull
      obtain ⟨j, hj⟩ := exists_firstAt (fun j => (s.clientFds j).clientFd) (not_not.1 hk)
      have hj : s.FirstClient 0 j := hj
      rw [Serves, hcall, acceptClient_free hj]
      split_ifs with hcount
      · refine iff_of_false ?_ hfull
        exact fun hroom => hroom haccepts j hj hcount
      · refine iff_of_true (hasRoom_accept hj hcount i clientFd) ?_
        exact fun _ _ => ⟨j, hj.1, rfl⟩
  · have hcall : s.call (.accept i clientFd) = some s := if_neg haccepts
    refine iff_of_true (fun h => absurd h haccepts) ?_
    rw [Serves, hcall]
    exact fun h => absurd h haccepts

theorem Server.serves_setServer_iff (s : Server) (fd : ℤ) (flag : Bool) :
    s.HasRoom (.setServer fd flag) ↔ s.Serves (.setServer fd flag) := by
  have hcall : s.call (.setServer fd flag) = setServer fd flag s := rfl
  by_cases hfull : ∀ i, (s.myFds i).fd ≠ -1
  · refine iff_of_true ?_ ?_
    · exact fun i hi => absurd hi.1 (hfull i)
    · rw [Serves, hcall, setServer_full hfull]
      exact hfull
  · obtain ⟨k, hk⟩ := not_forall.1 hfull
    obtain ⟨i, hi⟩ := exists_firstAt (fun i => (s.myFds i).fd) (not_not.1 hk)
    have hi : s.FirstFd (-1) i := hi
    rw [Serves, hcall, setServer_free hi]
    split_ifs with hlast
    · refine iff_of_false ?_ hfull
      exact fun hroom => hroom i hi hlast
    · exact iff_of_true (hasRoom_setServer hi hlast fd flag) ⟨i, hi.1, rfl⟩

theorem Server.serves_unsetServer (s : Server) (fd : ℤ) : s.Serves (.unsetServer fd) := by
  have hcall : s.call (.unsetServer fd) = some (unsetServer fd s).2 := rfl
  rw [Serves, hcall]
  rintro ⟨k, hk⟩
  obtain ⟨i, hi⟩ := exists_firstAt (fun i => (s.myFds i).fd) hk
  refine ⟨i, hi.1, ?_⟩
  simp only [unsetServer_found hi, Function.update_self]

theorem Server.serves_clientDisconnect (s : Server) (fd : ℤ) :
    s.Serves (.clientDisconnect fd) := by
  have hcall : s.call (.clientDisconnect fd) = some (clientDisconnect fd s) := rfl
  rw [Serves, hcall]
  rcases clientDisconnect_cases fd s with ⟨j, hj, hclosed⟩ | ⟨hclients, ⟨i, hi, hclosed⟩ | ⟨hfds, -⟩⟩
  · rw [hclosed]
    exact ⟨fun _ => ⟨j, hj.1, by simp only [Function.update_self]⟩,
      fun hnone => absurd hj.1 (hnone j)⟩
  · rw [hclosed]
    exact ⟨fun ⟨j, hj⟩ => absurd hj (hclients j),
      fun _ _ => ⟨i, hi.1, by simp only [Function.update_self]⟩⟩
  · exact ⟨fun ⟨j, hj⟩ => absurd hj (hclients j), fun _ ⟨i, hi⟩ => absurd hi (hfds i)⟩

theorem Server.serves_iff (s : Server) (a : ServerCall) : s.HasRoom a ↔ s.Serves a := by
  cases a with
  | accept i clientFd => exact s.serves_accept_iff i clientFd
  | setServer fd flag => exact s.serves_setServer_iff fd flag
  | unsetServer fd => exact iff_of_true trivial (s.serves_unsetServer fd)
  | clientDisconnect fd => exact iff_of_true trivial (s.serves_clientDisconnect fd)

def ServerProcess.Meets (cond : Server → ServerCall → Prop) : ServerProcess → ServerCall → Prop
  | .up s, a => cond s a
  | .exited _ _, _ => True

/-- The process has not ended, or a table was full. -/
def ServerProcess.EndsFull : ServerProcess → Prop
  | .up _ => True
  | .exited s a => s.Full a

/-- In every run in which no client makes the hundredth look at a place and no server is put into
the last one, the process ends only when a table is full. A further call is served exactly under
that condition. -/
theorem places_usable {p : ServerProcess}
    (h : Runs.Reaches ServerProcess.step (ServerProcess.Meets Server.HasRoom)
      (fun p => p = .up initServer) p) :
    p.EndsFull ∧ ∀ s, p = .up s → ∀ a, s.HasRoom a ↔ s.Serves a := by
  refine ⟨?_, fun s _ a => s.serves_iff a⟩
  refine h.invariant ?_ ?_
  · rintro _ rfl
    trivial
  · intro p a p' _ hok hstep
    cases p with
    | exited s b => cases hstep
    | up s =>
        obtain rfl := Option.some.inj hstep
        have hserves := (s.serves_iff a).1 hok
        rw [Server.Serves] at hserves
        cases hcall : s.call a with
        | none =>
            rw [hcall] at hserves
            exact hserves
        | some s' => trivial

def visits : List ServerCall :=
  [.setServer 3 true, .accept 0 5, .accept 0 6, .clientDisconnect 5, .accept 0 7]

theorem places_usable_visits :
    ∃ s, visits.foldlM ServerProcess.step (.up initServer) = some (.up s) ∧
      (s.clientFds 0).clientFd = 7 ∧ (s.clientFds 1).clientFd = 6 ∧
      ∀ a, s.HasRoom a ↔ s.Serves a := by
  have hadmits : Runs.Admits ServerProcess.step (ServerProcess.Meets Server.HasRoom)
      (.up initServer) visits := by
    refine .cons ?_ rfl (.cons ?_ rfl (.cons ?_ rfl (.cons trivial rfl (.cons ?_ rfl trivial))))
    · exact Server.hasRoom_setServer (i := 0) ⟨rfl, by decide +kernel⟩ (by decide) 3 true
    · exact Server.hasRoom_accept (j := 0) ⟨rfl, by decide +kernel⟩ (by decide) 0 5
    · exact Server.hasRoom_accept (j := 1) ⟨rfl, by decide +kernel⟩ (by decide) 0 6
    · exact Server.hasRoom_accept (j := 0) ⟨rfl, by decide +kernel⟩ (by decide) 0 7
  have hrun : ∃ s, visits.foldlM ServerProcess.step (.up initServer) = some (.up s) ∧
      (s.clientFds 0).clientFd = 7 ∧ (s.clientFds 1).clientFd = 6 :=
    ⟨_, rfl, by decide, by decide⟩
  obtain ⟨s, hs, hfirst, hsecond⟩ := hrun
  have hstart : Runs.Reaches ServerProcess.step (ServerProcess.Meets Server.HasRoom)
      (fun p => p = .up initServer) (.up initServer) := .start rfl
  exact ⟨s, hs, hfirst, hsecond, (places_usable (hstart.admits hadmits hs)).2 s rfl⟩

def crowd : List ServerCall :=
  .setServer 3 true :: (List.range 13).map (fun k => .accept 0 (4 + k)) ++
    [.clientDisconnect 12, .accept 0 17]

/-- With thirteen clients the process ends because there are too many. -/
theorem places_not_always_usable :
    ∃ p, Runs.Reaches ServerProcess.step (fun _ _ => True) (fun p => p = .up initServer) p ∧
      ¬ p.EndsFull := by
  have hrun : ∃ s, crowd.foldlM ServerProcess.step (.up initServer) =
      some (.exited s (.accept 0 17)) ∧ (s.clientFds 99).clientFd = 0 := ⟨_, rfl, by decide⟩
  obtain ⟨s, hs, hfree⟩ := hrun
  exact ⟨_, Runs.Reaches.run (.start rfl) hs, fun hfull => hfull 99 hfree⟩

/-! ## Watched descriptors -/

def Server.Watches (s : Server) : Prop := ∀ fd ∈ s.allset, fd ≤ s.maxfd

def ServerProcess.Watches : ServerProcess → Prop
  | .up s => s.Watches
  | .exited _ _ => True

/-- A client for which there is no place is no higher than `maxfd` and the descriptors of the
tables, and no watched descriptor is higher than those that are left in the table of the servers
when one is taken away. -/
def Server.Covers (s : Server) : ServerCall → Prop
  | .accept i clientFd => s.Accepts i → (∀ j, (s.clientFds j).clientFd ≠ 0) →
      clientFd ≤ s.maxfd ∨ (∃ i, clientFd ≤ (s.myFds i).fd) ∨
        ∃ j, clientFd ≤ (s.clientFds j).clientFd
  | .unsetServer fd => ∀ watched ∈ s.allset, watched ≠ fd →
      watched ≤ 0 ∨ ∃ i, ¬ s.FirstFd fd i ∧ watched ≤ (s.myFds i).fd
  | _ => True

/-- The descriptor that was added last decides, when no other one is left out. -/
theorem Server.watches_insert_iff {s : Server} {fd : ℤ}
    (h : ∀ watched ∈ s.allset, watched ≤ s.maxfd) :
    (calcMaxfd { s with allset := insert fd s.allset }).Watches ↔
      fd ≤ s.maxfd ∨ (∃ i, fd ≤ (s.myFds i).fd) ∨ ∃ j, fd ≤ (s.clientFds j).clientFd := by
  constructor
  · intro hwatches
    exact le_calcMaxfd_iff.1 (hwatches fd (Finset.mem_insert_self ..))
  · intro hfd watched hwatched
    rcases Finset.mem_insert.1 hwatched with rfl | hwatched
    · exact le_calcMaxfd_iff.2 hfd
    · exact le_calcMaxfd_iff.2 (.inl (h watched hwatched))

theorem Server.Watches.accept_iff {s s' : Server} (hs : s.Watches) {i : Fin MAX_FDS}
    {clientFd : ℤ} (h : s.call (.accept i clientFd) = some s') :
    s.Covers (.accept i clientFd) ↔ s'.Watches := by
  by_cases haccepts : s.Accepts i
  · have hcall : s.call (.accept i clientFd) = acceptClient i clientFd s := if_pos haccepts
    rw [hcall] at h
    by_cases hfull : ∀ j, (s.clientFds j).clientFd ≠ 0
    · rw [acceptClient_full hfull] at h
      split_ifs at h
      obtain rfl := Option.some.inj h
      refine Iff.trans ?_
        (watches_insert_iff (s := { s with
          numClients := Int.bmod (s.numClients + MAX_CLIENTS) (2 ^ 32) }) hs).symm
      exact ⟨fun hcovers => hcovers haccepts hfull, fun hfd _ _ => hfd⟩
    · obtain ⟨k, hk⟩ := not_forall.1 hfull
      obtain ⟨j, hj⟩ := exists_firstAt (fun j => (s.clientFds j).clientFd) (not_not.1 hk)
      rw [acceptClient_free hj] at h
      split_ifs at h
      obtain rfl := Option.some.inj h
      refine iff_of_true (fun _ hnone => absurd hnone hfull) ?_
      refine (watches_insert_iff (s := { s with
        clientFds := Function.update s.clientFds j ⟨clientFd, (s.myFds i).fd⟩
        numClients := Int.bmod (s.numClients + (j.val + 1 : ℕ)) (2 ^ 32) }) hs).2 (.inr (.inr ⟨j, ?_⟩))
      simp only [Function.update_self, le_refl]
  · have hcall : s.call (.accept i clientFd) = some s := if_neg haccepts
    obtain rfl := Option.some.inj (hcall.symm.trans h)
    exact iff_of_true (fun hnot => absurd hnot haccepts) hs

theorem Server.Watches.setServer {s s' : Server} (hs : s.Watches) {fd : ℤ} {flag : Bool}
    (h : setServer fd flag s = some s') : s'.Watches := by
  by_cases hfull : ∀ i, (s.myFds i).fd ≠ -1
  · rw [setServer_full hfull] at h
    cases h
  · obtain ⟨k, hk⟩ := not_forall.1 hfull
    obtain ⟨i, hi⟩ := exists_firstAt (fun i => (s.myFds i).fd) (not_not.1 hk)
    rw [setServer_free hi] at h
    split_ifs at h
    obtain rfl := Option.some.inj h
    refine (watches_insert_iff (s := { s with
      myFds := Function.update s.myFds i ⟨fd, flag⟩ }) hs).2 (.inr (.inl ⟨i, ?_⟩))
    simp only [Function.update_self, le_refl]

theorem Server.watches_unsetServer_iff (s : Server) (fd : ℤ) :
    s.Covers (.unsetServer fd) ↔ (unsetServer fd s).2.Watches := by
  by_cases hmissing : ∀ i, (s.myFds i).fd ≠ fd
  · rw [unsetServer_missing hmissing]
    refine forall_congr' fun watched => ?_
    simp only [Finset.mem_erase, le_raiseMaxfd_iff]
    constructor
    · rintro hcovers ⟨hne, hwatched⟩
      rcases hcovers hwatched hne with hle | ⟨i, -, hle⟩
      · exact .inl hle
      · exact .inr ⟨i, hle⟩
    · rintro hwatches hwatched hne
      rcases hwatches ⟨hne, hwatched⟩ with hle | ⟨i, hle⟩
      · exact .inl hle
      · exact .inr ⟨i, fun hi => hmissing i hi.1, hle⟩
  · obtain ⟨k, hk⟩ := not_forall.1 hmissing
    obtain ⟨j, hj⟩ := exists_firstAt (fun i => (s.myFds i).fd) (not_not.1 hk)
    have hj : s.FirstFd fd j := hj
    rw [unsetServer_found hj]
    refine forall_congr' fun watched => ?_
    simp only [Finset.mem_erase, le_raiseMaxfd_iff]
    constructor
    · rintro hcovers ⟨hne, hwatched⟩
      rcases hcovers hwatched hne with hle | ⟨i, hi, hle⟩
      · exact .inl hle
      · have hij : i ≠ j := fun heq => hi (heq ▸ hj)
        exact .inr ⟨i, by rwa [Function.update_of_ne hij]⟩
    · rintro hwatches hwatched hne
      rcases hwatches ⟨hne, hwatched⟩ with hle | ⟨i, hle⟩
      · exact .inl hle
      · by_cases hij : i = j
        · rw [hij, Function.update_self] at hle
          exact .inl (hle.trans (by decide))
        · rw [Function.update_of_ne hij] at hle
          exact .inr ⟨i, fun hi => hij (hi.unique hj), hle⟩

theorem Server.Watches.clientDisconnect {s : Server} (hs : s.Watches) (fd : ℤ) :
    (clientDisconnect fd s).Watches := by
  rcases clientDisconnect_cases fd s with ⟨j, -, hclosed⟩ | ⟨-, ⟨i, -, hclosed⟩ | ⟨-, hsame⟩⟩
  · rw [hclosed]
    exact fun watched hwatched => hs watched (Finset.mem_of_mem_erase hwatched)
  · rw [hclosed]
    exact fun watched hwatched => hs watched (Finset.mem_of_mem_erase hwatched)
  · rwa [hsame]

/-- A call leaves no watched descriptor out exactly when it covers them. -/
theorem Server.Watches.call_iff {s s' : Server} (hs : s.Watches) {a : ServerCall}
    (h : s.call a = some s') : s.Covers a ↔ s'.Watches := by
  cases a with
  | accept i clientFd => exact hs.accept_iff h
  | setServer fd flag => exact iff_of_true trivial (hs.setServer h)
  | unsetServer fd =>
      obtain rfl := Option.some.inj h
      exact s.watches_unsetServer_iff fd
  | clientDisconnect fd =>
      obtain rfl := Option.some.inj h
      exact iff_of_true trivial (hs.clientDisconnect fd)

/-- In every run whose calls cover the watched descriptors, none of them is higher than `maxfd`. A
further call leaves none out exactly under that condition. -/
theorem maxfd_watches {p : ServerProcess}
    (h : Runs.Reaches ServerProcess.step (ServerProcess.Meets Server.Covers)
      (fun p => p = .up initServer) p) :
    p.Watches ∧
      ∀ s, p = .up s → ∀ a s', s.call a = some s' → (s.Covers a ↔ s'.Watches) := by
  have hwatches : p.Watches := by
    refine h.invariant ?_ ?_
    · rintro _ rfl fd hfd
      exact absurd hfd (Finset.notMem_empty fd)
    · intro p a p' hp hok hstep
      cases p with
      | exited s b => cases hstep
      | up s =>
          obtain rfl := Option.some.inj hstep
          cases hcall : s.call a with
          | none => trivial
          | some s' => exact (Server.Watches.call_iff hp hcall).1 hok
  refine ⟨hwatches, ?_⟩
  rintro s rfl a s' hcall
  exact Server.Watches.call_iff hwatches hcall

def departure : List ServerCall :=
  [.setServer 3 true, .setServer 9 false, .accept 0 5, .unsetServer 3]

theorem maxfd_watches_departure :
    ∃ s, departure.foldlM ServerProcess.step (.up initServer) = some (.up s) ∧
      s.allset = {5, 9} ∧ s.maxfd = 9 ∧ s.Watches ∧
      ∀ a s', s.call a = some s' → (s.Covers a ↔ s'.Watches) := by
  have hadmits : Runs.Admits ServerProcess.step (ServerProcess.Meets Server.Covers)
      (.up initServer) departure := by
    refine .cons trivial rfl (.cons trivial rfl (.cons ?_ rfl (.cons ?_ rfl trivial)))
    · exact fun _ hfull => absurd rfl (hfull 99)
    · intro watched hwatched _
      refine .inr ⟨1, fun hfirst => absurd hfirst.1 (by decide), ?_⟩
      revert watched
      decide +kernel
  have hrun : ∃ s, departure.foldlM ServerProcess.step (.up initServer) = some (.up s) ∧
      s.allset = {5, 9} ∧ s.maxfd = 9 := ⟨_, rfl, by decide, by decide +kernel⟩
  obtain ⟨s, hs, hset, hmaxfd⟩ := hrun
  have hstart : Runs.Reaches ServerProcess.step (ServerProcess.Meets Server.Covers)
      (fun p => p = .up initServer) (.up initServer) := .start rfl
  obtain ⟨hwatches, hnext⟩ := maxfd_watches (hstart.admits hadmits hs)
  exact ⟨s, hs, hset, hmaxfd, hwatches, hnext s rfl⟩

/-- A client has connected to a server, and another connection is closed. -/
theorem maxfd_not_always_watches :
    ∃ p, Runs.Reaches ServerProcess.step (fun _ _ => True) (fun p => p = .up initServer) p ∧
      ¬ p.Watches := by
  have hrun : ∃ s, [ServerCall.setServer 3 true, .setServer 4 false, .accept 0 5,
      .unsetServer 4].foldlM ServerProcess.step (.up initServer) = some (.up s) ∧
      5 ∈ s.allset ∧ s.maxfd = 3 := ⟨_, rfl, by decide, by decide +kernel⟩
  obtain ⟨s, hs, hwatched, hmaxfd⟩ := hrun
  refine ⟨_, Runs.Reaches.run (.start rfl) hs, fun hwatches => ?_⟩
  have := hwatches 5 hwatched
  rw [hmaxfd] at this
  exact absurd this (by decide)

end ScOpen
