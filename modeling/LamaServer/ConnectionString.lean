import LamaServer.Generation
import LamaServer.GrammarParser
import LamaServer.Store

/-!
# The connection string of the database

`PQconnectdb` gets one string with the address of the database and the credentials of the request.
Here the strings are their bytes.
-/

namespace LamaServer

def hostKeyword : Text := "host".toList.map ascii

def portKeyword : Text := "port".toList.map ascii

def dbnameKeyword : Text := "dbname".toList.map ascii

def userKeyword : Text := "user".toList.map ascii

def passwordKeyword : Text := "password".toList.map ascii

/-- `postgres_client::connection_string`. -/
def connectionString (host : Text) (port : Int) (dbname user password : Text) : Text :=
  hostKeyword ++ ascii '=' :: host ++ ascii ' ' :: portKeyword ++ ascii '=' :: decimal port
    ++ ascii ' ' :: dbnameKeyword ++ ascii '=' :: dbname
    ++ (if user ≠ [] then ascii ' ' :: userKeyword ++ ascii '=' :: user else [])
    ++ if password ≠ [] then ascii ' ' :: passwordKeyword ++ ascii '=' :: password else []

end LamaServer
