import DosKernel.Users.Sound

namespace DosKernel.Users

open DosKernel.Identity DosKernel.Lib

-- The two files of the account database, how `users_save` writes them and how a boot reads them.

-- The dash of the header lines is the three bytes it is stored as.
def passwdHeader : Text :=
  "# d-os accounts â\u0080\u0094 name:uid:gid:type:elevation:home\n".toList

def groupsHeader : Text := "# groups â\u0080\u0094 @group:name:gid:uid,uid,...\n".toList

def shadowHeader : Text :=
  "# d-os password hashes â\u0080\u0094 name:iterations:salt:pbkdf2-sha256\n".toList

def nextLine (db : Db) : Text :=
  buildLine ["@nextuid:".toList, sItoa db.nextUid, [':'], sItoa db.nextGid, ['\n']]

def accountLine (u : Account) : Text :=
  buildLine [u.name, [':'], sItoa u.uid, [':'], sItoa u.gid, [':'], sItoa u.type, [':'],
    sItoa u.elevation, [':'], u.home, ['\n']]

def Group.uids (g : Group) : List ℤ := g.members.filter (· ≠ uidNone)

def groupLine (g : Group) : Text :=
  buildLine (["@group:".toList, g.name, [':'], sItoa g.gid, [':']] ++
    (g.uids.map sItoa).intersperse [','] ++ [['\n']])

def shadowLine (u : Account) : Text :=
  buildLine [u.name, [':'], sItoa u.kdfIters, [':'], u.saltHex, [':'], u.hashHex, [':'],
    sItoa (if u.pwIsDefault then 1 else 0), ['\n']]

def savePasswd (db : Db) : Text :=
  passwdHeader ++ nextLine db ++ db.users.live.flatMap accountLine ++ groupsHeader ++
    db.groups.live.flatMap groupLine

def saveShadow (db : Db) : Text :=
  shadowHeader ++ (db.users.live.filter (·.hasPassword)).flatMap shadowLine

def parseNext (db : Db) (uid gid : Text) : Db :=
  { db with
    nextUid := if db.nextUid < sAtoi uid then sAtoi uid else db.nextUid
    nextGid := if db.nextGid < sAtoi gid then sAtoi gid else db.nextGid }

def parseMembers (mem : Text) : List ℤ :=
  let uids := ((split ',' mem (groupMaxMembers - 1)).filter (· ≠ [])).map sAtoi
  uids ++ List.replicate (groupMaxMembers - uids.length) uidNone

-- A free slot is looked for first, also where the group exists.
def putGroup (db : Db) (name : Text) (g : Group) : Db :=
  match db.groups.insert g with
  | none => db
  | some groups =>
    if (groupByName db name).isSome then
      { db with groups := db.groups.update (·.name == name) fun _ => some g }
    else { db with groups := groups }

def parseGroup (db : Db) (name gid mem : Text) : Db :=
  putGroup db name
    { name := sCopy (userNameMax + 1) name, gid := sAtoi gid, members := parseMembers mem }

def blankAccount : Account := { name := [], uid := 0, gid := 0, home := [], kdfIters := 0 }

def fillAccount (name uid gid type elevation home : Text) (u : Account) : Account :=
  { u with
    name := sCopy (userNameMax + 1) name
    uid := sAtoi uid
    gid := sAtoi gid
    type := sAtoi type
    elevation := sAtoi elevation
    home := sCopy (userPathMax + 1) home }

def putAccount (db : Db) (name : Text) (fill : Account → Account) : Db :=
  if (userByName db name).isSome then
    { db with users := db.users.update (·.name == name) fun u => some (fill u) }
  else { db with users := (db.users.insert (fill blankAccount)).getD db.users }

def parseAccount (db : Db) (name uid gid type elevation home : Text) : Db :=
  putAccount db name (fillAccount name uid gid type elevation home)

def parseMarked (db : Db) : List Text → Db
  | f0 :: f1 :: f2 :: fs =>
    if f0 = "@nextuid".toList then parseNext db f1 f2
    else if f0 = "@group".toList then
      match fs with
      | f3 :: _ => parseGroup db f1 f2 f3
      | [] => db
    else db
  | _ => db

def parsePerson (db : Db) : List Text → Db
  | f0 :: f1 :: f2 :: f3 :: f4 :: f5 :: _ => parseAccount db f0 f1 f2 f3 f4 f5
  | _ => db

def parsePasswdLine (db : Db) (line : Text) : Db :=
  match line.head? with
  | none => db
  | some c =>
    if c = '#' then db
    else if c = '@' then parseMarked db (split ':' line 7)
    else parsePerson db (split ':' line 7)

-- The last field may be missing.
def fillSecret (iters salt hash : Text) (flag : Option Text) (u : Account) : Account :=
  { u with
    kdfIters := (sAtoi iters % 4294967296).toNat
    saltHex := sCopy (2 * userSaltBytes + 1) salt
    hashHex := sCopy 65 hash
    hasPassword := true
    pwIsDefault := decide (flag.elim 0 sAtoi ≠ 0) }

def parseSecret (db : Db) : List Text → Db
  | f0 :: f1 :: f2 :: f3 :: fs =>
    { db with
      users := db.users.update (·.name == f0) fun u => some (fillSecret f1 f2 f3 fs.head? u) }
  | _ => db

def parseShadowLine (db : Db) (line : Text) : Db :=
  match line.head? with
  | none => db
  | some c => if c = '#' then db else parseSecret db (split ':' line 5)

def fileMax : ℕ := 4095

def loadFile (fn : Db → Text → Db) (db : Db) (file : Text) : Db :=
  (lines [] (file.take fileMax)).foldl fn db

-- `users_init`, then `users_attach_persistent` on a volume with these files.
def boot (kdf : Kdf) (salt : Salt) (passwd shadow : Text) : Db :=
  loadFile parseShadowLine (loadFile parsePasswdLine (usersInit kdf salt) passwd) shadow

def reboot (kdf : Kdf) (salt : Salt) (db : Db) : Db :=
  boot kdf salt (savePasswd db) (saveShadow db)

end DosKernel.Users
